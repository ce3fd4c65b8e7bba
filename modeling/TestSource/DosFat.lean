import Mathlib.Tactic.Ring
import TestSource.DosIo

/- fat.c of dosfsck on a 32-bit target: the file allocation table, kept in memory and in
   two copies on the disk. The memory behind fs->fat is a function of the index, of which
   2 to clusters + 1 are the table; what the others hold is not known. -/
namespace TestSource.Dosfsck
open Splice

inductive FatBits where
  | fat12
  | fat16
  | fat32
deriving DecidableEq

def FatBits.size : FatBits → Nat
  | .fat12 => 12
  | .fat16 => 16
  | .fat32 => 32

def FatBits.effSize : FatBits → Nat
  | .fat12 => 12
  | .fat16 => 16
  | .fat32 => 28

structure Entry where
  value : Nat
  reserved : Nat
  owner : Option Nat
  prev : Int
deriving DecidableEq

/-- The fields of DOS_FS, less the table. -/
structure DosFs where
  nfats : Nat
  fatStart : Nat
  fatSize : Nat
  fatBits : FatBits
  dataStart : Nat
  clusterSize : Nat
  clusters : Nat
deriving DecidableEq

structure Options where
  interactive : Bool
  writeImmed : Bool
  atariFormat : Bool
deriving DecidableEq

structure Fat where
  table : Nat → Entry
  disk : Disk

/-- -1 and -2 as an unsigned long. -/
def minusOne : Nat := 0xffffffff
def minusTwo : Nat := 0xfffffffe

section Markers
variable (o : Options) (fs : DosFs)

def fatExtd : Nat := ((1 <<< fs.fatBits.effSize) - 1) &&& 0xfffffff0
def fatEof : Nat := (if o.atariFormat then 0xfff else 0xff8) ||| fatExtd fs
def fatIsEof (v : Nat) : Bool := v ≥ (0xff8 ||| fatExtd fs)
def fatBad : Nat := 0xff7 ||| fatExtd fs
def fatMinBad : Nat := (if o.atariFormat then 0xff0 else 0xff7) ||| fatExtd fs
def fatMaxBad : Nat := 0xff7 ||| fatExtd fs
def fatIsBad (v : Nat) : Bool := fatMinBad o fs ≤ v && v ≤ fatMaxBad fs

end Markers

def byteOf (l : List Byte) (k : Nat) : Nat := (l.getD k 0).toNat

def longAt (fat : List Byte) (k : Nat) : Nat :=
  byteOf fat k + byteOf fat (k + 1) * 0x100 + byteOf fat (k + 2) * 0x10000 +
    byteOf fat (k + 3) * 0x1000000

def getFat (entry : Entry) (fat : List Byte) (cluster : Nat) (fs : DosFs) : Entry :=
  let entry := match fs.fatBits with
    | .fat12 =>
        let ptr := cluster * 3 / 2
        { entry with
          value := 0xfff &&& (if cluster &&& 1 ≠ 0 then
              byteOf fat ptr >>> 4 ||| byteOf fat (ptr + 1) <<< 4
            else byteOf fat ptr ||| byteOf fat (ptr + 1) <<< 8) }
    | .fat16 => { entry with value := byteOf fat (2 * cluster) + byteOf fat (2 * cluster + 1) * 0x100 }
    | .fat32 =>
        { entry with
          value := longAt fat (4 * cluster) &&& 0xfffffff
          reserved := longAt fat (4 * cluster) >>> 28 }
  { entry with owner := none }

/-- Where set_fat writes in the first copy, and what it writes. -/
def entryData (fs : DosFs) (table : Nat → Entry) (cluster new : Nat) : Nat × List Byte :=
  match fs.fatBits with
  | .fat12 =>
      (fs.fatStart + cluster * 3 / 2,
        if cluster &&& 1 ≠ 0 then
          [BitVec.ofNat 8 ((new &&& 0xf) <<< 4 ||| (table (cluster - 1)).value >>> 8),
            BitVec.ofNat 8 (new >>> 4)]
        else
          [BitVec.ofNat 8 (new &&& 0xff),
            -- clusters - 1 is compared, where the last entry is that of clusters + 1
            BitVec.ofNat 8 (new >>> 8 ||| (if cluster = fs.clusters - 1 then 0
              else (0xff &&& (table (cluster + 1)).value) <<< 4))])
  | .fat16 =>
      (fs.fatStart + cluster * 2, [BitVec.ofNat 8 new, BitVec.ofNat 8 (new >>> 8)])
  | .fat32 =>
      let data := (new &&& 0xfffffff) ||| (table cluster).reserved <<< 28
      (fs.fatStart + cluster * 4,
        [BitVec.ofNat 8 data, BitVec.ofNat 8 (data >>> 8), BitVec.ofNat 8 (data >>> 16),
          BitVec.ofNat 8 (data >>> 24)])

def newValue (o : Options) (fs : DosFs) (new : Nat) : Nat :=
  if new = minusOne then fatEof o fs
  else if new = minusTwo then fatBad fs
  else new

def setValue (table : Nat → Entry) (cluster new : Nat) : Nat → Entry :=
  Function.update table cluster { table cluster with value := new }

/-- The second copy is written whatever nfats is. -/
def setFat (o : Options) (fs : DosFs) (s : Fat) (cluster new : Nat) : Except Died Fat := do
  let new := newValue o fs new
  let (offs, data) := entryData fs s.table cluster new
  let disk ← fsWrite o.writeImmed s.disk offs data
  let disk ← fsWrite o.writeImmed disk (offs + fs.fatSize) data
  pure { table := setValue s.table cluster new, disk }

def nextCluster (o : Options) (fs : DosFs) (s : Fat) (cluster : Nat) : Except Died Nat :=
  let value := (s.table cluster).value
  if fatIsBad o fs value then .error .nextOnBad
  else .ok (if fatIsEof fs value then minusOne else value)

def clusterStart (fs : DosFs) (cluster : Nat) : Nat := fs.dataStart + (cluster - 2) * fs.clusterSize

def setOwner (s : Fat) (cluster : Nat) (owner : Option Nat) : Except Died Fat :=
  if owner.isSome && (s.table cluster).owner.isSome then .error .ownerChanged
  else .ok { s with table := Function.update s.table cluster { s.table cluster with owner } }

def getOwner (s : Fat) (cluster : Nat) : Option Nat := (s.table cluster).owner

section Entries

theorem byteOf_lt (l : List Byte) (k : Nat) : byteOf l k < 256 := (l.getD k 0).isLt

theorem byteOf_splice {l m : List Byte} {pos : Nat} (fits : pos + m.length ≤ l.length) (k : Nat) :
    byteOf (splice l pos m) k =
      if pos ≤ k ∧ k < pos + m.length then byteOf m (k - pos) else byteOf l k := by
  simp only [byteOf, List.getD_eq_getElem?_getD, getElem?_splice fits]
  split <;> rfl

theorem byteOf_slice {l : List Byte} {pos n k : Nat} (low : k < n) :
    byteOf (slice l pos n) k = byteOf l (pos + k) := by
  simp only [byteOf, List.getD_eq_getElem?_getD, getElem?_slice, if_pos low]

def entryIn (bits : FatBits) (l : List Byte) (base cluster : Nat) : Nat :=
  match bits with
  | .fat12 =>
      let ptr := base + cluster * 3 / 2
      if cluster % 2 = 1 then byteOf l ptr / 16 + byteOf l (ptr + 1) * 16
      else byteOf l ptr + byteOf l (ptr + 1) % 16 * 256
  | .fat16 => byteOf l (base + 2 * cluster) + byteOf l (base + 2 * cluster + 1) * 256
  | .fat32 => longAt l (base + 4 * cluster) % 2 ^ 28

def reservedIn (l : List Byte) (base cluster : Nat) : Nat := longAt l (base + 4 * cluster) / 2 ^ 28

theorem entryIn_lt (bits : FatBits) (l : List Byte) (base cluster : Nat) :
    entryIn bits l base cluster < 2 ^ bits.effSize := by
  cases bits with
  | fat12 =>
    have low := byteOf_lt l (base + cluster * 3 / 2)
    have high := byteOf_lt l (base + cluster * 3 / 2 + 1)
    simp only [entryIn, FatBits.effSize]
    split <;> omega
  | fat16 =>
    have low := byteOf_lt l (base + 2 * cluster)
    have high := byteOf_lt l (base + 2 * cluster + 1)
    simp only [entryIn, FatBits.effSize]
    omega
  | fat32 => exact Nat.mod_lt _ (by decide)

theorem or_low {a b n : Nat} (low : b < 2 ^ n) : b ||| a <<< n = b + a * 2 ^ n := by
  rw [Nat.or_comm, ← Nat.shiftLeft_add_eq_or_of_lt low, Nat.shiftLeft_eq, Nat.add_comm]

theorem low_bits (n v : Nat) : (2 ^ n - 1) &&& v = v % 2 ^ n := by
  rw [Nat.and_comm, Nat.and_two_pow_sub_one_eq_mod]

theorem odd_bit (cluster : Nat) : (cluster &&& 1 ≠ 0) = (cluster % 2 = 1) := by
  rw [Nat.and_one_is_mod, ne_eq, Nat.mod_two_not_eq_zero]

theorem getFat_value (entry : Entry) (fat : List Byte) (cluster : Nat) (fs : DosFs) :
    (getFat entry fat cluster fs).value = entryIn fs.fatBits fat 0 cluster := by
  cases kind : fs.fatBits with
  | fat12 =>
    have low := byteOf_lt fat (cluster * 3 / 2)
    have high := byteOf_lt fat (cluster * 3 / 2 + 1)
    simp only [getFat, kind, entryIn, odd_bit, Nat.zero_add]
    rw [show (0xfff : Nat) = 2 ^ 12 - 1 from rfl, low_bits]
    split
    · rw [Nat.shiftRight_eq_div_pow, or_low (by omega)]
      omega
    · rw [or_low (by omega)]
      omega
  | fat16 => simp [getFat, kind, entryIn]
  | fat32 =>
    simp only [getFat, kind, entryIn, Nat.zero_add]
    rw [Nat.and_comm, show (0xfffffff : Nat) = 2 ^ 28 - 1 from rfl, low_bits]

theorem getFat_slice (entry : Entry) (l : List Byte) (base : Nat) {n cluster : Nat} {fs : DosFs}
    (covered : (cluster + 1) * fs.fatBits.size ≤ n * 8) :
    (getFat entry (slice l base n) cluster fs).value = entryIn fs.fatBits l base cluster := by
  rw [getFat_value]
  cases kind : fs.fatBits with
  | fat12 =>
    rw [kind] at covered
    simp only [FatBits.size] at covered
    simp only [entryIn, Nat.zero_add]
    rw [byteOf_slice (by omega), byteOf_slice (by omega), ← Nat.add_assoc]
  | fat16 =>
    rw [kind] at covered
    simp only [FatBits.size] at covered
    simp only [entryIn, Nat.zero_add]
    rw [byteOf_slice (by omega), byteOf_slice (by omega), ← Nat.add_assoc]
  | fat32 =>
    rw [kind] at covered
    simp only [FatBits.size] at covered
    simp only [entryIn, longAt, Nat.zero_add]
    rw [byteOf_slice (by omega), byteOf_slice (by omega), byteOf_slice (by omega),
      byteOf_slice (by omega), ← Nat.add_assoc, ← Nat.add_assoc, ← Nat.add_assoc]

end Entries
section Write
variable {fs : DosFs} {table : Nat → Entry} {l : List Byte} {base cluster new : Nat}

def entryOffset (bits : FatBits) (cluster : Nat) : Nat :=
  match bits with
  | .fat12 => cluster * 3 / 2
  | .fat16 => cluster * 2
  | .fat32 => cluster * 4

theorem entryData_offset (fs : DosFs) (table : Nat → Entry) (cluster new : Nat) :
    (entryData fs table cluster new).1 = fs.fatStart + entryOffset fs.fatBits cluster := by
  cases kind : fs.fatBits <;> simp [entryData, entryOffset, kind]

theorem entryData_length (fs : DosFs) (table : Nat → Entry) (cluster new : Nat) :
    (entryData fs table cluster new).2.length = if fs.fatBits = .fat32 then 4 else 2 := by
  cases kind : fs.fatBits with
  | fat12 =>
    simp only [entryData, kind]
    split <;> rfl
  | fat16 => simp [entryData, kind]
  | fat32 => simp [entryData, kind]

/-- The entry that loses its low bits on the disk when the cluster before it is set. -/
def Slip (fs : DosFs) (cluster : Nat) : Prop :=
  fs.fatBits = .fat12 ∧ cluster % 2 = 0 ∧ cluster + 1 = fs.clusters

instance (fs : DosFs) (cluster : Nat) : Decidable (Slip fs cluster) := by
  unfold Slip
  infer_instance

/-- What a copy shows of an entry: its value, or for the entry of `clusters`, once the
    cluster before it has been set, the value without its low bits. -/
def shownValue (fs : DosFs) (table : Nat → Entry) (lost : Bool) (i : Nat) : Nat :=
  if lost ∧ i = fs.clusters then (table i).value - (table i).value % 16 else (table i).value

/-- The copy of the table at `base` shows the values in memory, with the low bits of the
    entry of `clusters` lost or not. -/
structure Shows (fs : DosFs) (table : Nat → Entry) (l : List Byte) (base : Nat) (lost : Bool) : Prop where
  slipped : lost → fs.fatBits = .fat12 ∧ fs.clusters % 2 = 1
  value : ∀ i, 2 ≤ i → i < fs.clusters + 2 →
    entryIn fs.fatBits l base i = shownValue fs table lost i
  reserved : fs.fatBits = .fat32 → ∀ i, 2 ≤ i → i < fs.clusters + 2 →
    reservedIn l base i = (table i).reserved

theorem byteOf_pair {p k : Nat} {x y : Byte} (fits : p + 2 ≤ l.length) :
    byteOf (splice l p [x, y]) k =
      if k = p then x.toNat else if k = p + 1 then y.toNat else byteOf l k := by
  rw [byteOf_splice (by simpa using fits)]
  by_cases first : k = p
  · subst first
    rw [if_pos (by simp), if_pos rfl, Nat.sub_self]
    rfl
  · by_cases second : k = p + 1
    · subst second
      rw [if_pos (by simp), if_neg first, if_pos rfl, Nat.add_sub_cancel_left]
      rfl
    · rw [if_neg (by simp only [List.length_cons, List.length_nil]; omega), if_neg first, if_neg second]

/-- A byte shared with the entry behind keeps the high bits of an even entry. -/
theorem even_kept {b c k v : Nat} (byte : b < 256) (held : b + c % 16 * 256 = v) :
    b + (k * 16 + v / 256) % 16 * 256 = v := by
  have high : v / 256 = c % 16 := by omega
  rw [high, Nat.mul_add_mod_of_lt (Nat.mod_lt c (by decide))]
  exact held

/-- A byte shared with the entry before keeps what it is given of an odd entry's low bits. -/
theorem odd_kept {b c k n v : Nat} (byte : b < 256) (high : k < 16) (held : b / 16 + c * 16 = v) :
    (k + n * 16) / 16 + c * 16 = v - v % 16 + n := by
  have low : (k + n * 16) / 16 = n := by omega
  rw [low]
  omega

theorem write_fat12_odd (kind : fs.fatBits = .fat12) (odd : cluster % 2 = 1)
    (fits : base + cluster * 3 / 2 + 2 ≤ l.length) (small : new < 4096)
    (before : entryIn .fat12 l base (cluster - 1) = (table (cluster - 1)).value) (i : Nat) :
    entryIn .fat12 (splice l (base + cluster * 3 / 2) (entryData fs table cluster new).2) base i =
      if i = cluster then new else entryIn .fat12 l base i := by
  have byte := byteOf_lt l (base + (cluster - 1) * 3 / 2)
  have bound : (table (cluster - 1)).value < 4096 := before ▸ entryIn_lt .fat12 l base (cluster - 1)
  have x : (BitVec.ofNat 8 ((new &&& 0xf) <<< 4 ||| (table (cluster - 1)).value >>> 8)).toNat =
      new % 16 * 16 + (table (cluster - 1)).value / 256 := by
    rw [Nat.or_comm, Nat.shiftRight_eq_div_pow, or_low (by omega), Nat.and_comm,
      show (0xf : Nat) = 2 ^ 4 - 1 from rfl, low_bits, BitVec.toNat_ofNat]
    omega
  have y : (BitVec.ofNat 8 (new >>> 4)).toNat = new / 16 := by
    rw [Nat.shiftRight_eq_div_pow, BitVec.toNat_ofNat]
    omega
  simp only [entryData, kind, odd_bit, if_pos odd]
  simp only [entryIn, byteOf_pair fits, x, y] at before ⊢
  clear x y
  rw [if_neg (by omega)] at before
  by_cases here : i = cluster
  · subst here
    rw [if_pos odd, if_pos rfl, if_neg (by omega), if_pos rfl, if_pos rfl]
    omega
  · rw [if_neg here]
    by_cases beside : i = cluster - 1
    · subst beside
      have next : base + (cluster - 1) * 3 / 2 + 1 = base + cluster * 3 / 2 := by omega
      rw [next] at before ⊢
      rw [if_neg (by omega), if_neg (by omega), if_neg (by omega), if_pos rfl,
        even_kept byte before, if_neg (by omega), before]
    · have first : ¬ base + i * 3 / 2 = base + cluster * 3 / 2 := by omega
      have second : ¬ base + i * 3 / 2 = base + cluster * 3 / 2 + 1 := by omega
      have third : ¬ base + i * 3 / 2 + 1 = base + cluster * 3 / 2 := by omega
      have fourth : ¬ base + i * 3 / 2 + 1 = base + cluster * 3 / 2 + 1 := by omega
      rw [if_neg first, if_neg second, if_neg third, if_neg fourth]

theorem write_fat12_even (kind : fs.fatBits = .fat12) (even : cluster % 2 = 0)
    (fits : base + cluster * 3 / 2 + 2 ≤ l.length) (low : 2 ≤ cluster) (small : new < 4096)
    (i : Nat) :
    entryIn .fat12 (splice l (base + cluster * 3 / 2) (entryData fs table cluster new).2) base i =
      if i = cluster then new
      else if i = cluster + 1 then entryIn .fat12 l base i - entryIn .fat12 l base i % 16 +
        (if Slip fs cluster then 0 else (table i).value % 16)
      else entryIn .fat12 l base i := by
  -- m holds the low bits that are kept of the entry behind
  obtain ⟨m, shifted, kept⟩ : ∃ m,
      (if cluster = fs.clusters - 1 then 0 else (0xff &&& (table (cluster + 1)).value) <<< 4) = m <<< 4 ∧
      (i = cluster + 1 → m % 16 = if Slip fs cluster then 0 else (table i).value % 16) := by
    by_cases last : cluster = fs.clusters - 1
    · refine ⟨0, by simp [last], ?_⟩
      intro next
      rw [if_pos ⟨kind, even, by omega⟩]
    · refine ⟨0xff &&& (table (cluster + 1)).value, if_neg last, ?_⟩
      intro next
      rw [if_neg (fun slip => last (by have := slip.2.2; omega)), next,
        show (0xff : Nat) = 2 ^ 8 - 1 from rfl, low_bits]
      exact Nat.mod_mod_of_dvd _ (by decide)
  have x : (BitVec.ofNat 8 (new &&& 0xff)).toNat = new % 256 := by
    rw [Nat.and_comm, show (0xff : Nat) = 2 ^ 8 - 1 from rfl, low_bits, BitVec.toNat_ofNat]
    omega
  have y : (BitVec.ofNat 8 (new >>> 8 ||| m <<< 4)).toNat = new / 256 + m % 16 * 16 := by
    have high : new / 256 < 2 ^ 4 := by omega
    rw [Nat.shiftRight_eq_div_pow, or_low high, BitVec.toNat_ofNat]
    omega
  simp only [entryData, kind, odd_bit, if_neg (show ¬ cluster % 2 = 1 by omega), shifted]
  simp only [entryIn, byteOf_pair fits, x, y]
  clear x y shifted
  by_cases here : i = cluster
  · subst here
    rw [if_neg (by omega), if_pos rfl, if_neg (by omega), if_pos rfl, if_pos rfl]
    omega
  · rw [if_neg here]
    by_cases beside : i = cluster + 1
    · subst beside
      have next : base + (cluster + 1) * 3 / 2 = base + cluster * 3 / 2 + 1 := by omega
      have byte := byteOf_lt l (base + cluster * 3 / 2 + 1)
      have odd : (cluster + 1) % 2 = 1 := by omega
      rw [next, if_pos odd, if_neg (by omega), if_pos rfl, if_neg (by omega), if_neg (by omega),
        odd_kept byte (by omega) rfl, kept rfl, if_pos odd, if_pos rfl]
    · have first : ¬ base + i * 3 / 2 = base + cluster * 3 / 2 := by omega
      have second : ¬ base + i * 3 / 2 = base + cluster * 3 / 2 + 1 := by omega
      have third : ¬ base + i * 3 / 2 + 1 = base + cluster * 3 / 2 := by omega
      have fourth : ¬ base + i * 3 / 2 + 1 = base + cluster * 3 / 2 + 1 := by omega
      rw [if_neg first, if_neg second, if_neg third, if_neg fourth, if_neg beside]

theorem write_fat16 (kind : fs.fatBits = .fat16) (fits : base + cluster * 2 + 2 ≤ l.length)
    (small : new < 65536) (i : Nat) :
    entryIn .fat16 (splice l (base + cluster * 2) (entryData fs table cluster new).2) base i =
      if i = cluster then new else entryIn .fat16 l base i := by
  have y : (BitVec.ofNat 8 (new >>> 8)).toNat = new / 256 := by
    rw [Nat.shiftRight_eq_div_pow, BitVec.toNat_ofNat]
    omega
  simp only [entryData, kind]
  simp only [entryIn, byteOf_pair fits, y, BitVec.toNat_ofNat]
  by_cases here : i = cluster
  · subst here
    rw [if_pos (by omega), if_neg (by omega), if_pos (by omega), if_pos rfl]
    omega
  · rw [if_neg (by omega), if_neg (by omega), if_neg (by omega), if_neg (by omega), if_neg here]

theorem longAt_splice {m : List Byte} {p k : Nat} (four : m.length = 4) (fits : p + 4 ≤ l.length)
    (apart : k = p ∨ k + 4 ≤ p ∨ p + 4 ≤ k) :
    longAt (splice l p m) k = if k = p then longAt m 0 else longAt l k := by
  have inside : p + m.length ≤ l.length := by omega
  simp only [longAt, byteOf_splice inside]
  by_cases here : k = p
  · subst here
    rw [if_pos (by omega), if_pos (by omega), if_pos (by omega), if_pos (by omega), if_pos rfl,
      Nat.sub_self, Nat.add_sub_cancel_left, Nat.add_sub_cancel_left, Nat.add_sub_cancel_left]
  · rw [if_neg (by omega), if_neg (by omega), if_neg (by omega), if_neg (by omega), if_neg here]

theorem longAt_lt (l : List Byte) (k : Nat) : longAt l k < 2 ^ 32 := by
  have first := byteOf_lt l k
  have second := byteOf_lt l (k + 1)
  have third := byteOf_lt l (k + 2)
  have fourth := byteOf_lt l (k + 3)
  unfold longAt
  omega

theorem longAt_bytes (data : Nat) : longAt [BitVec.ofNat 8 data, BitVec.ofNat 8 (data >>> 8),
    BitVec.ofNat 8 (data >>> 16), BitVec.ofNat 8 (data >>> 24)] 0 = data % 2 ^ 32 := by
  simp only [longAt, byteOf, Nat.zero_add, List.getD_cons_zero, List.getD_cons_succ,
    BitVec.toNat_ofNat, Nat.shiftRight_eq_div_pow]
  omega

theorem write_fat32 (kind : fs.fatBits = .fat32) (fits : base + cluster * 4 + 4 ≤ l.length)
    (small : new < 2 ^ 28) (own : reservedIn l base cluster = (table cluster).reserved) (i : Nat) :
    entryIn .fat32 (splice l (base + cluster * 4) (entryData fs table cluster new).2) base i =
        (if i = cluster then new else entryIn .fat32 l base i) ∧
      reservedIn (splice l (base + cluster * 4) (entryData fs table cluster new).2) base i =
        reservedIn l base i := by
  have data : (new &&& 0xfffffff) ||| (table cluster).reserved <<< 28 =
      new + (table cluster).reserved * 2 ^ 28 := by
    rw [Nat.and_comm, show (0xfffffff : Nat) = 2 ^ 28 - 1 from rfl, low_bits, Nat.mod_eq_of_lt small,
      or_low small]
  have short : (table cluster).reserved < 16 := by
    have bound := longAt_lt l (base + 4 * cluster)
    rw [reservedIn] at own
    omega
  simp only [entryData, kind, data, entryIn, reservedIn] at own ⊢
  rw [longAt_splice rfl fits (by omega), longAt_bytes]
  by_cases here : i = cluster
  · subst here
    rw [if_pos (by omega), if_pos rfl]
    omega
  · rw [if_neg (by omega), if_neg here]
    exact ⟨rfl, rfl⟩

theorem setValue_value (table : Nat → Entry) (cluster new i : Nat) :
    (setValue table cluster new i).value = if i = cluster then new else (table i).value := by
  unfold setValue
  by_cases here : i = cluster
  · subst here
    rw [Function.update_self, if_pos rfl]
  · rw [Function.update_of_ne here, if_neg here]

theorem setValue_reserved (table : Nat → Entry) (cluster new i : Nat) :
    (setValue table cluster new i).reserved = (table i).reserved := by
  unfold setValue
  by_cases here : i = cluster
  · subst here
    rw [Function.update_self]
  · rw [Function.update_of_ne here]

def lostAfter (fs : DosFs) (lost : Bool) (cluster : Nat) : Bool :=
  if Slip fs cluster then true else if cluster = fs.clusters then false else lost

theorem entryIn_write
    (fits : base + entryOffset fs.fatBits cluster + (entryData fs table cluster new).2.length ≤ l.length)
    (low : 2 ≤ cluster) (small : new < 2 ^ fs.fatBits.effSize)
    (before : fs.fatBits = .fat12 → cluster % 2 = 1 →
      entryIn .fat12 l base (cluster - 1) = (table (cluster - 1)).value)
    (own : fs.fatBits = .fat32 → reservedIn l base cluster = (table cluster).reserved) (i : Nat) :
    entryIn fs.fatBits
        (splice l (base + entryOffset fs.fatBits cluster) (entryData fs table cluster new).2) base i =
      (if i = cluster then new
        else if (fs.fatBits = .fat12 ∧ cluster % 2 = 0) ∧ i = cluster + 1 then
          entryIn fs.fatBits l base i - entryIn fs.fatBits l base i % 16 +
            (if Slip fs cluster then 0 else (table i).value % 16)
        else entryIn fs.fatBits l base i) ∧
    (fs.fatBits = .fat32 → reservedIn
        (splice l (base + entryOffset fs.fatBits cluster) (entryData fs table cluster new).2) base i =
      reservedIn l base i) := by
  rw [entryData_length] at fits
  cases kind : fs.fatBits with
  | fat12 =>
    simp only [kind, reduceCtorEq, if_false, entryOffset, FatBits.effSize, true_and] at fits small ⊢
    refine ⟨?_, fun other => absurd other (by decide)⟩
    by_cases odd : cluster % 2 = 1
    · rw [write_fat12_odd kind odd fits small (before kind odd) i]
      have apart : ¬ (cluster % 2 = 0 ∧ i = cluster + 1) := by omega
      rw [if_neg apart]
    · have even : cluster % 2 = 0 := by omega
      rw [write_fat12_even kind even fits low small i]
      simp only [even, true_and]
  | fat16 =>
    simp only [kind, reduceCtorEq, if_false, entryOffset, FatBits.effSize, false_and] at fits small ⊢
    exact ⟨write_fat16 kind fits small i, fun other => absurd other (by decide)⟩
  | fat32 =>
    simp only [kind, reduceCtorEq, if_true, if_false, entryOffset, FatBits.effSize, false_and] at fits small ⊢
    have written := write_fat32 kind fits small (own kind) i
    exact ⟨written.1, fun _ => written.2⟩

theorem shownValue_high (lost : Bool) (i : Nat) :
    shownValue fs table lost i - shownValue fs table lost i % 16 =
      (table i).value - (table i).value % 16 := by
  unfold shownValue
  split <;> omega

theorem shows_write {lost : Bool} (shows : Shows fs table l base lost)
    (fits : base + entryOffset fs.fatBits cluster + (entryData fs table cluster new).2.length ≤ l.length)
    (low : 2 ≤ cluster) (high : cluster < fs.clusters + 2) (small : new < 2 ^ fs.fatBits.effSize) :
    Shows fs (setValue table cluster new)
      (splice l (base + entryOffset fs.fatBits cluster) (entryData fs table cluster new).2) base
      (lostAfter fs lost cluster) := by
  obtain ⟨slipped, value, reserved⟩ := shows
  have before : fs.fatBits = .fat12 → cluster % 2 = 1 →
      entryIn .fat12 l base (cluster - 1) = (table (cluster - 1)).value := by
    intro kind odd
    have shown := value (cluster - 1) (by omega) (by omega)
    rw [kind, shownValue, if_neg] at shown
    · exact shown
    · rintro ⟨yes, last⟩
      have := (slipped yes).2
      omega
  have written := entryIn_write fits low small before fun kind => reserved kind cluster low high
  constructor
  · unfold lostAfter
    intro yes
    split at yes
    · rename_i slip
      exact ⟨slip.1, by have := slip.2; omega⟩
    · split at yes
      · cases yes
      · exact slipped yes
  · intro i lowest highest
    rw [(written i).1, value i lowest highest, shownValue_high]
    unfold shownValue lostAfter
    rw [setValue_value]
    by_cases here : i = cluster
    · -- the entry itself; if it is that of `clusters`, nothing is lost any more
      rw [if_pos here, if_pos here, if_neg]
      rintro ⟨yes, last⟩
      rw [if_neg (fun slip => by have := slip.2.2; omega), if_pos (by omega)] at yes
      cases yes
    · rw [if_neg here, if_neg here]
      by_cases slip : Slip fs cluster
      · have last := slip.2.2
        rw [if_pos slip, if_pos slip]
        by_cases behind : i = cluster + 1
        · rw [if_pos ⟨⟨slip.1, slip.2.1⟩, behind⟩, if_pos ⟨rfl, by omega⟩, Nat.add_zero]
        · rw [if_neg (fun both => behind both.2), if_neg (fun both => behind (by omega)),
            if_neg (fun both => behind (by omega))]
      · rw [if_neg slip, if_neg slip]
        by_cases behind : (fs.fatBits = .fat12 ∧ cluster % 2 = 0) ∧ i = cluster + 1
        · have inside : ¬ i = fs.clusters := fun last => slip ⟨behind.1.1, behind.1.2, by omega⟩
          rw [if_pos behind, if_neg (fun both => inside both.2), Nat.sub_add_cancel (Nat.mod_le _ _)]
        · rw [if_neg behind]
          by_cases last : cluster = fs.clusters
          · rw [if_neg (fun both => here (both.2.trans last.symm)),
              if_neg (fun both => here (both.2.trans last.symm))]
          · rw [if_neg last]
  · intro kind i lowest highest
    rw [(written i).2 kind, setValue_reserved, reserved kind i lowest highest]

end Write

section SetFat
variable {o : Options} {fs : DosFs}

/-- What read_boot has checked of the tables, and that both can be read on the device. -/
structure Laid (o : Options) (fs : DosFs) (dev : Device) : Prop where
  entries : (fs.clusters + 2) * fs.fatBits.size ≤ fs.fatSize * 8
  room : fs.fatStart + 2 * fs.fatSize ≤ dev.content.length
  readable : ∀ a ∈ dev.unreadable, a < fs.fatStart ∨ fs.fatStart + 2 * fs.fatSize ≤ a

structure Ready (o : Options) (dev : Device) (d : Disk) : Prop where
  inside : d.Inside
  direct : o.writeImmed → d.changes = []
  length : d.device.content.length = dev.content.length
  unreadable : d.device.unreadable = dev.unreadable

/-- The bytes of the table that are read. FAT32 tables of 2^27 clusters and more are left out:
    there (clusters + 2) * fat_bits wraps where unsigned long has 32 bits. -/
def effSize (fs : DosFs) : Nat := ((fs.clusters + 2) * fs.fatBits.size + 7) / 8

def Reread (fs : DosFs) (s : Fat) (start : Nat) : Prop :=
  ∃ bytes, fsRead s.disk start (effSize fs) = .ok bytes ∧
    ∀ i, 2 ≤ i → i < fs.clusters + 2 → (getFat (s.table i) bytes i fs).value = (s.table i).value ∧
      (getFat (s.table i) bytes i fs).reserved = (s.table i).reserved

/-- Both copies on the disk are the table in memory. -/
def Mirrored (fs : DosFs) (s : Fat) : Prop :=
  Reread fs s fs.fatStart ∧ Reread fs s (fs.fatStart + fs.fatSize)

theorem getFat_reserved (entry : Entry) (l : List Byte) (base : Nat) {n cluster : Nat} {fs : DosFs}
    (covered : (cluster + 1) * fs.fatBits.size ≤ n * 8) :
    (getFat entry (slice l base n) cluster fs).reserved =
      if fs.fatBits = .fat32 then reservedIn l base cluster else entry.reserved := by
  cases kind : fs.fatBits with
  | fat12 => simp [getFat, kind]
  | fat16 => simp [getFat, kind]
  | fat32 =>
    rw [kind] at covered
    simp only [FatBits.size] at covered
    simp only [getFat, kind, if_true, reservedIn, longAt, Nat.shiftRight_eq_div_pow]
    rw [byteOf_slice (by omega), byteOf_slice (by omega), byteOf_slice (by omega),
      byteOf_slice (by omega), ← Nat.add_assoc, ← Nat.add_assoc, ← Nat.add_assoc]

theorem covered_of_lt {i : Nat} (highest : i < fs.clusters + 2) :
    (i + 1) * fs.fatBits.size ≤ effSize fs * 8 := by
  have whole : (i + 1) * fs.fatBits.size ≤ (fs.clusters + 2) * fs.fatBits.size :=
    Nat.mul_le_mul_right _ highest
  unfold effSize
  omega

theorem fsRead_ready {dev : Device} {start n : Nat} {d : Disk} (ready : Ready o dev d)
    (room : (Op.read start n).Within dev) : fsRead d start n = .ok (slice d.view start n) := by
  apply fsRead_view ready.inside
  · rw [ready.length]
    exact room.1
  · rw [ready.unreadable]
    exact room.2

theorem reread_iff {dev : Device} {start : Nat} {s : Fat} {lost : Bool} (ready : Ready o dev s.disk)
    (room : (Op.read start (effSize fs)).Within dev) (shows : Shows fs s.table s.disk.view start lost) :
    Reread fs s start ↔
      ∀ i, 2 ≤ i → i < fs.clusters + 2 → shownValue fs s.table lost i = (s.table i).value := by
  have read := fsRead_ready ready room
  constructor
  · rintro ⟨bytes, got, holds⟩ i lowest highest
    rw [read] at got
    cases got
    rw [← shows.value i lowest highest, ← getFat_slice (s.table i) _ _ (covered_of_lt highest)]
    exact (holds i lowest highest).1
  · intro same
    refine ⟨_, read, ?_⟩
    intro i lowest highest
    rw [getFat_slice _ _ _ (covered_of_lt highest), getFat_reserved _ _ _ (covered_of_lt highest),
      shows.value i lowest highest]
    refine ⟨same i lowest highest, ?_⟩
    split
    · rename_i kind
      exact shows.reserved kind i lowest highest
    · rfl

theorem shows_of_reread {dev : Device} {start : Nat} {s : Fat} (ready : Ready o dev s.disk)
    (room : (Op.read start (effSize fs)).Within dev) (reread : Reread fs s start) :
    Shows fs s.table s.disk.view start false := by
  obtain ⟨bytes, got, holds⟩ := reread
  rw [fsRead_ready ready room] at got
  cases got
  constructor
  · simp
  · intro i lowest highest
    rw [← getFat_slice (s.table i) _ _ (covered_of_lt highest), (holds i lowest highest).1]
    simp [shownValue]
  · intro kind i lowest highest
    have reserved := (holds i lowest highest).2
    rwa [getFat_reserved _ _ _ (covered_of_lt highest), if_pos kind] at reserved

theorem entryIn_beside {l m : List Byte} {pos base i : Nat} (fits : pos + m.length ≤ l.length)
    (beside : base + effSize fs ≤ pos ∨ pos + m.length ≤ base) (highest : i < fs.clusters + 2) :
    entryIn fs.fatBits (splice l pos m) base i = entryIn fs.fatBits l base i ∧
      (fs.fatBits = .fat32 → reservedIn (splice l pos m) base i = reservedIn l base i) := by
  have covered := covered_of_lt highest
  have same := slice_splice_beside fits beside
  have blank : Entry := ⟨0, 0, none, 0⟩
  constructor
  · rw [← getFat_slice blank (splice l pos m) base covered, same, getFat_slice blank l base covered]
  · intro kind
    have now := getFat_reserved blank (splice l pos m) base covered
    have before := getFat_reserved blank l base covered
    rw [if_pos kind] at now before
    rw [← now, same, before]

theorem shows_beside {table : Nat → Entry} {l m : List Byte} {pos base : Nat} {lost : Bool}
    (shows : Shows fs table l base lost) (fits : pos + m.length ≤ l.length)
    (beside : base + effSize fs ≤ pos ∨ pos + m.length ≤ base) :
    Shows fs table (splice l pos m) base lost := by
  constructor
  · exact shows.slipped
  · intro i lowest highest
    rw [(entryIn_beside fits beside highest).1, shows.value i lowest highest]
  · intro kind i lowest highest
    rw [(entryIn_beside fits beside highest).2 kind, shows.reserved kind i lowest highest]

theorem effSize_le {dev : Device} (laid : Laid o fs dev) : effSize fs ≤ fs.fatSize := by
  have := laid.entries
  unfold effSize
  omega

theorem copies_within {dev : Device} (laid : Laid o fs dev) :
    (Op.read fs.fatStart (effSize fs)).Within dev ∧
      (Op.read (fs.fatStart + fs.fatSize) (effSize fs)).Within dev := by
  have room := laid.room
  have whole := effSize_le laid
  refine ⟨⟨by omega, ?_⟩, by omega, ?_⟩
  · intro a bad
    have := laid.readable a bad
    omega
  · intro a bad
    have := laid.readable a bad
    omega

theorem entry_within {cluster : Nat} (high : cluster < fs.clusters + 2) (table : Nat → Entry)
    (new : Nat) :
    entryOffset fs.fatBits cluster + (entryData fs table cluster new).2.length ≤ effSize fs := by
  rw [entryData_length]
  unfold effSize
  cases fs.fatBits with
  | fat12 =>
    simp only [entryOffset, FatBits.size, reduceCtorEq, if_false]
    omega
  | fat16 =>
    simp only [entryOffset, FatBits.size, reduceCtorEq, if_false]
    omega
  | fat32 =>
    simp only [entryOffset, FatBits.size, if_true]
    omega

theorem newValue_lt {new : Nat}
    (legal : new = minusOne ∨ new = minusTwo ∨ new < 2 ^ fs.fatBits.effSize) :
    newValue o fs new < 2 ^ fs.fatBits.effSize := by
  have eof : fatEof o fs < 2 ^ fs.fatBits.effSize := by
    unfold fatEof fatExtd
    cases fs.fatBits <;> cases o.atariFormat <;> decide
  have bad : fatBad fs < 2 ^ fs.fatBits.effSize := by
    unfold fatBad fatExtd
    cases fs.fatBits <;> decide
  unfold newValue
  split
  · exact eof
  · split
    · exact bad
    · omega

theorem ready_write {dev : Device} {pos : Nat} {d : Disk} {data : List Byte} (ready : Ready o dev d)
    (within : pos + data.length ≤ dev.content.length) :
    ∃ t, fsWrite o.writeImmed d pos data = .ok t ∧ Ready o dev t ∧
      t.view = splice d.view pos data := by
  rw [← ready.length] at within
  obtain ⟨t, wrote, view, inside, length, readable, direct, _, _⟩ :=
    fsWrite_view o.writeImmed ready.inside within ready.direct
  exact ⟨t, wrote, ⟨inside, direct, length.trans ready.length, readable.trans ready.unreadable⟩, view⟩

theorem ready_length {dev : Device} {d : Disk} (ready : Ready o dev d) : d.view.length = dev.content.length :=
  (view_length ready.inside).trans ready.length

/-- The two writes of set_fat succeed; the view of the disk after them. -/
theorem setFat_view {dev : Device} {cluster : Nat} {s : Fat} (laid : Laid o fs dev)
    (ready : Ready o dev s.disk) (high : cluster < fs.clusters + 2) (new : Nat) :
    ∃ t, setFat o fs s cluster new = .ok t ∧ Ready o dev t.disk ∧
      t.table = setValue s.table cluster (newValue o fs new) ∧
      t.disk.view =
        splice (splice s.disk.view (fs.fatStart + entryOffset fs.fatBits cluster)
            (entryData fs s.table cluster (newValue o fs new)).2)
          (fs.fatStart + fs.fatSize + entryOffset fs.fatBits cluster)
          (entryData fs s.table cluster (newValue o fs new)).2 := by
  have within := entry_within high s.table (newValue o fs new)
  have room := laid.room
  have whole := effSize_le laid
  have offset := entryData_offset fs s.table cluster (newValue o fs new)
  have move : fs.fatStart + entryOffset fs.fatBits cluster + fs.fatSize =
      fs.fatStart + fs.fatSize + entryOffset fs.fatBits cluster := by omega
  have front : fs.fatStart + entryOffset fs.fatBits cluster +
      (entryData fs s.table cluster (newValue o fs new)).2.length ≤ dev.content.length := by omega
  have back : fs.fatStart + fs.fatSize + entryOffset fs.fatBits cluster +
      (entryData fs s.table cluster (newValue o fs new)).2.length ≤ dev.content.length := by omega
  obtain ⟨d, first, next, view⟩ := ready_write ready front
  obtain ⟨e, second, last, final⟩ := ready_write next back
  refine ⟨⟨setValue s.table cluster (newValue o fs new), e⟩, ?_, last, rfl, by rw [final, view]⟩
  simp only [setFat, offset, move, first, second, bind, Except.bind, pure, Except.pure]

/-- Nothing outside the two tables differs. -/
def Untouched (fs : DosFs) (l m : List Byte) : Prop :=
  ∀ a, a < fs.fatStart ∨ fs.fatStart + 2 * fs.fatSize ≤ a → m[a]? = l[a]?

theorem untouched_splice {l m : List Byte} {pos : Nat} (fits : pos + m.length ≤ l.length)
    (low : fs.fatStart ≤ pos) (high : pos + m.length ≤ fs.fatStart + 2 * fs.fatSize) :
    Untouched fs l (splice l pos m) := by
  intro a outside
  rw [getElem?_splice fits, if_neg (by omega)]

theorem untouched_trans {l m n : List Byte} (first : Untouched fs l m) (second : Untouched fs m n) :
    Untouched fs l n := fun a outside => (second a outside).trans (first a outside)

def BothShow (fs : DosFs) (s : Fat) (lost : Bool) : Prop :=
  Shows fs s.table s.disk.view fs.fatStart lost ∧
    Shows fs s.table s.disk.view (fs.fatStart + fs.fatSize) lost

theorem setFat_shows {dev : Device} {cluster : Nat} {s : Fat} {lost : Bool} (laid : Laid o fs dev)
    (ready : Ready o dev s.disk) (shows : BothShow fs s lost) (low : 2 ≤ cluster)
    (high : cluster < fs.clusters + 2) {new : Nat}
    (legal : new = minusOne ∨ new = minusTwo ∨ new < 2 ^ fs.fatBits.effSize) :
    ∃ t, setFat o fs s cluster new = .ok t ∧ Ready o dev t.disk ∧
      t.table = setValue s.table cluster (newValue o fs new) ∧
      BothShow fs t (lostAfter fs lost cluster) ∧ Untouched fs s.disk.view t.disk.view := by
  obtain ⟨t, done, next, table, view⟩ := setFat_view laid ready high new
  have within := entry_within high s.table (newValue o fs new)
  have room := laid.room
  have whole := effSize_le laid
  have small := newValue_lt (o := o) legal
  have length := ready_length ready
  have fits : fs.fatStart + entryOffset fs.fatBits cluster +
      (entryData fs s.table cluster (newValue o fs new)).2.length ≤ s.disk.view.length := by omega
  have after := splice_length fits
  refine ⟨t, done, next, table, ?_, ?_⟩
  · rw [BothShow, view, table]
    constructor
    · apply shows_beside (shows_write shows.1 fits low high small)
      · omega
      · left
        omega
    · apply shows_write (shows_beside shows.2 fits _) _ low high small
      · right
        omega
      · omega
  · rw [view]
    apply untouched_trans (untouched_splice fits (by omega) (by omega))
    apply untouched_splice <;> omega

theorem bothShow_of_mirrored {dev : Device} {s : Fat} (laid : Laid o fs dev)
    (ready : Ready o dev s.disk) (mirrored : Mirrored fs s) : BothShow fs s false := by
  obtain ⟨first, second⟩ := copies_within laid
  exact ⟨shows_of_reread ready first mirrored.1, shows_of_reread ready second mirrored.2⟩

theorem mirrored_iff {dev : Device} {s : Fat} {lost : Bool} (laid : Laid o fs dev)
    (ready : Ready o dev s.disk) (shows : BothShow fs s lost) :
    Mirrored fs s ↔ (lost → 2 ≤ fs.clusters → (s.table fs.clusters).value % 16 = 0) := by
  obtain ⟨first, second⟩ := copies_within laid
  rw [Mirrored, reread_iff ready first shows.1, reread_iff ready second shows.2, and_self]
  constructor
  · intro same yes two
    have shown := same fs.clusters two (by omega)
    rw [shownValue, if_pos ⟨yes, rfl⟩] at shown
    have := Nat.mod_le (s.table fs.clusters).value 16
    omega
  · intro none i lowest _
    unfold shownValue
    split
    · rename_i both
      rw [both.2] at lowest ⊢
      rw [none both.1 lowest, Nat.sub_zero]
    · rfl

/-- Setting a cluster keeps the copies equal to the table unless it clears the low bits of
    the entry behind it. -/
def Keeps (fs : DosFs) (s : Fat) (cluster : Nat) : Prop :=
  Slip fs cluster → (s.table (cluster + 1)).value % 16 = 0

theorem setFat_mirrored {dev : Device} {cluster : Nat} {s : Fat} (laid : Laid o fs dev)
    (ready : Ready o dev s.disk) (mirrored : Mirrored fs s) (low : 2 ≤ cluster)
    (high : cluster < fs.clusters + 2) {new : Nat}
    (legal : new = minusOne ∨ new = minusTwo ∨ new < 2 ^ fs.fatBits.effSize) :
    ∃ t, setFat o fs s cluster new = .ok t ∧ Ready o dev t.disk ∧
      (Mirrored fs t ↔ Keeps fs s cluster) := by
  obtain ⟨t, done, next, table, shows, _⟩ :=
    setFat_shows laid ready (bothShow_of_mirrored laid ready mirrored) low high legal
  refine ⟨t, done, next, ?_⟩
  rw [mirrored_iff laid next shows, Keeps, table]
  by_cases slip : Slip fs cluster
  · have last := slip.2.2
    have lost : lostAfter fs false cluster = true := if_pos slip
    have other : ¬ fs.clusters = cluster := by omega
    rw [lost, setValue_value, if_neg other, last]
    simp only [slip, forall_const]
    constructor
    · intro none
      exact none (by omega)
    · intro none _
      exact none
  · have kept : lostAfter fs false cluster = false := by simp [lostAfter, slip]
    simp [kept, slip]

open Runs

def fatStep (o : Options) (fs : DosFs) (s : Fat) (call : Nat × Nat) : Option Fat :=
  (setFat o fs s call.1 call.2).toOption

/-- The cluster has an entry and the value fits in it. -/
def LegalCall (fs : DosFs) (call : Nat × Nat) : Prop :=
  (2 ≤ call.1 ∧ call.1 < fs.clusters + 2) ∧
    (call.2 = minusOne ∨ call.2 = minusTwo ∨ call.2 < 2 ^ fs.fatBits.effSize)

instance (fs : DosFs) (call : Nat × Nat) : Decidable (LegalCall fs call) := by
  unfold LegalCall
  infer_instance

/-- Whatever entries the checker sets, in whatever order, reading either copy of the table
    back gives the table in memory in every state it passes through, exactly when no even
    cluster clusters - 1 of a FAT12 is set while the entry behind it has low bits. -/
theorem copies_mirrored_iff {dev : Device} {s : Fat} {calls : List (Nat × Nat)} (laid : Laid o fs dev)
    (ready : Ready o dev s.disk) (start : Mirrored fs s) (legal : ∀ c ∈ calls, LegalCall fs c) :
    Always (fatStep o fs) (Mirrored fs) s calls ↔
      Meets (fatStep o fs) (fun s call => Keeps fs s call.1) s calls := by
  have step : ∀ s call, LegalCall fs call → Ready o dev s.disk ∧ Mirrored fs s →
      ∃ t, fatStep o fs s call = some t ∧ Ready o dev t.disk ∧ (Mirrored fs t ↔ Keeps fs s call.1) := by
    rintro s ⟨cluster, new⟩ ⟨⟨low, high⟩, value⟩ ⟨ready, mirrored⟩
    obtain ⟨t, done, next, same⟩ := setFat_mirrored laid ready mirrored low high value
    exact ⟨t, by simp [fatStep, done, Except.toOption], next, same⟩
  apply always_iff_meets_on (LegalCall fs) (I := fun s => Ready o dev s.disk ∧ Mirrored fs s)
    (fun s inv => inv.2) ?_ ?_ ⟨ready, start⟩ legal
  · intro s call allowed inv met
    obtain ⟨t, done, next, same⟩ := step s call allowed inv
    exact ⟨t, done, next, same.mpr met⟩
  · intro s call allowed inv unmet
    obtain ⟨t, done, _, same⟩ := step s call allowed inv
    exact ⟨t, done, fun mirrored => unmet (same.mp mirrored)⟩

/-- A FAT12 of three clusters; cluster 2 of no file links to cluster 3, the end of a file. -/
def threeClusters : DosFs :=
  { nfats := 2, fatStart := 2, fatSize := 8, fatBits := .fat12, dataStart := 18, clusterSize := 1,
    clusters := 3 }

def threeBytes : List Byte := [0xf8, 0xff, 0xff, 0x03, 0x80, 0xff, 0x00, 0x00]

def threeDevice : Device :=
  { content := [0, 0] ++ threeBytes ++ threeBytes ++ [1, 2, 3], unreadable := [], regular := true }

def threeFat : Fat :=
  { table := fun i =>
      { value := if i = 2 then 3 else if i = 3 then 0xff8 else 0, reserved := 0,
        owner := if i = 3 then some 1 else none, prev := 0 }
    disk := fsOpen threeDevice }

def automatic : Options := { interactive := false, writeImmed := false, atariFormat := false }

theorem three_laid : Laid automatic threeClusters threeDevice := by
  constructor <;> decide

theorem three_ready : Ready automatic threeDevice threeFat.disk := by
  constructor <;> simp [threeFat, fsOpen, Disk.Inside]

theorem three_mirrored : Mirrored threeClusters threeFat := by
  have holds : ∀ i, 2 ≤ i → i < threeClusters.clusters + 2 →
      (getFat (threeFat.table i) threeBytes i threeClusters).value = (threeFat.table i).value ∧
      (getFat (threeFat.table i) threeBytes i threeClusters).reserved = (threeFat.table i).reserved := by
    intro i lowest highest
    have three : i = 2 ∨ i = 3 ∨ i = 4 := by
      simp only [threeClusters] at highest
      omega
    rcases three with rfl | rfl | rfl <;> decide
  exact ⟨⟨threeBytes, by decide, holds⟩, ⟨threeBytes, by decide, holds⟩⟩

theorem three_clusters_mirrored :
    ¬ Always (fatStep automatic threeClusters) (Mirrored threeClusters) threeFat [(2, 0)] ∧
      Always (fatStep automatic threeClusters) (Mirrored threeClusters) threeFat [(4, minusOne), (3, 4)] := by
  rw [copies_mirrored_iff three_laid three_ready three_mirrored (by decide),
    copies_mirrored_iff three_laid three_ready three_mirrored (by decide)]
  constructor
  · intro meets
    exact absurd (meets.1 (by decide)) (by decide)
  · refine ⟨fun slip => absurd slip (by decide), fun t _ => ⟨fun slip => absurd slip (by decide), ?_⟩⟩
    intro u _
    trivial

end SetFat
end TestSource.Dosfsck
