import TestSource.BigEndian
import TestSource.Calendar
import TestSource.Common
import TestSource.Occurs

/- ntp_client.c where long and time_t have 64 bits and the least significant byte comes first. The
   texts of perror, the addresses and the call of mktime behind the print are left out. -/
namespace TestSource.Ntp

def SECONDS_1900_1970 : BitVec 32 := 0x83AA7E80

structure Tm where
  tmYear : Int
  tmMon : Int
  tmMday : Int
  tmHour : Int
  tmMin : Int
  tmSec : Int
  deriving DecidableEq, Repr

def gmtime (timet : BitVec 64) : Tm :=
  let c := Calendar.ofSeconds timet.toNat
  ⟨c.year - 1900, c.month - 1, c.day, c.hour, c.minute, c.second⟩

def ntohl (netlong : BitVec 32) : BitVec 32 :=
  BitVec.ofNat 32 (BigEndian.value (BigEndian.bytesOf 4 netlong.toNat).reverse)

/-- memcpy of four bytes to the start of a long. -/
def copyLow (temp : BitVec 64) (bytes : List Byte) : BitVec 64 :=
  temp.extractLsb' 32 32 ++ BitVec.ofNat 32 (BigEndian.value bytes.reverse)

/-- How one request ends: sendto, select or recvfrom fails, or a datagram is received. -/
inductive Exchange where
  | unsent
  | unanswered
  | unreceived
  | reply (datagram : List Byte)

def content (datagram : List Byte) : List Byte := (datagram ++ List.replicate 256 0).take 256

def transmitTimestamp (datagram : List Byte) : List Byte := ((content datagram).drop 40).take 4

/-- No result stands for -1; `temp` is what the variable holds before. -/
def getNtpTime (temp : BitVec 64) : Exchange → Option Tm
  | .reply datagram =>
      let temp := copyLow temp (transmitTimestamp datagram)
      let temp := (ntohl (temp.setWidth 32) - SECONDS_1900_1970).setWidth 64
      let netTm := gmtime temp
      some { netTm with tmHour := netTm.tmHour + 8 }
  | _ => none

def ip : List CStr := ["123.162.191.94", "91.189.94.4", "202.210.2.101", "17.83.253.7"].map String.toList

structure Shown where
  year : Int
  month : Int
  day : Int
  hour : Int
  minute : Int
  second : Int
  deriving DecidableEq, Repr

def Tm.shown (t : Tm) : Shown := ⟨t.tmYear + 1900, t.tmMon + 1, t.tmMday, t.tmHour, t.tmMin, t.tmSec⟩

inductive Print where
  | createFailed (ip : CStr)
  | success (ip : CStr)
  | ntp (shown : Shown)
  | getFailed
  deriving DecidableEq, Repr

structure Net where
  socket : Nat → Bool
  exchange : Nat → Nat → Exchange
  temp : Nat → Nat → BitVec 64

def tries (net : Net) (i : Nat) : Option Tm :=
  (List.range 3).findSome? fun cnt => getNtpTime (net.temp i cnt) (net.exchange i cnt)

def servers (net : Net) : Nat → List CStr → Int × List Print
  | _, [] => (0, [])
  | i, ip :: rest =>
      if !net.socket i then (-1, [.createFailed ip])
      else
        match tries net i with
        | some netTm => (0, [.success ip, .ntp netTm.shown])
        | none =>
            let (ret, prints) := servers net (i + 1) rest
            (ret, .success ip :: .getFailed :: prints)

def main (net : Net) : Int × List Print := servers net 0 ip

section Displayed

def Shown.Civil (s : Shown) (t : Nat) : Prop :=
  ∃ c : Calendar.Civil, c.Valid ∧ c.seconds = t ∧
    s = ⟨c.year, c.month, c.day, c.hour, c.minute, c.second⟩

def unixTime (timestamp : Nat) : Nat := (((timestamp : Int) - 0x83AA7E80) % 4294967296).toNat

structure FirstReply (net : Net) (i cnt : Nat) (datagram : List Byte) : Prop where
  listed : i < 4
  inTime : cnt < 3
  socket : ∀ j ≤ i, net.socket j = true
  before : ∀ j < i, ∀ c < 3, ∀ d, net.exchange j c ≠ .reply d
  earlier : ∀ c < cnt, ∀ d, net.exchange i c ≠ .reply d
  received : net.exchange i cnt = .reply datagram

def times (prints : List Print) : List Shown :=
  prints.filterMap fun
    | .ntp shown => some shown
    | _ => none

theorem ntohl_copied (temp : BitVec 64) {bytes : List Byte} (four : bytes.length = 4) :
    ntohl ((copyLow temp bytes).setWidth 32) = BitVec.ofNat 32 (BigEndian.value bytes) := by
  have low : (copyLow temp bytes).setWidth 32 = BitVec.ofNat 32 (BigEndian.value bytes.reverse) := by
    simp only [copyLow, BitVec.setWidth_append_eq_right]
  have small := BigEndian.value_lt bytes.reverse
  rw [List.length_reverse, four] at small
  have back := BigEndian.bytesOf_value bytes.reverse
  rw [List.length_reverse, four] at back
  rw [low, ntohl, BitVec.toNat_ofNat, Nat.mod_eq_of_lt (by omega), back, List.reverse_reverse]

theorem unix_seconds (timestamp : Nat) :
    ((BitVec.ofNat 32 timestamp - SECONDS_1900_1970).setWidth 64).toNat = unixTime timestamp := by
  simp [unixTime, SECONDS_1900_1970]
  omega

theorem getNtpTime_none {temp : BitVec 64} {e : Exchange} (none : ∀ d, e ≠ .reply d) :
    getNtpTime temp e = Option.none := by
  cases e with
  | reply d => exact absurd rfl (none d)
  | _ => rfl

theorem tries_none {net : Net} {i : Nat} (none : ∀ c < 3, ∀ d, net.exchange i c ≠ .reply d) :
    tries net i = Option.none := by
  rw [tries, List.findSome?_eq_none_iff]
  intro cnt mem
  exact getNtpTime_none (none cnt (List.mem_range.mp mem))

theorem tries_first {net : Net} {i cnt : Nat} {datagram : List Byte} (first : FirstReply net i cnt datagram) :
    tries net i = getNtpTime (net.temp i cnt) (.reply datagram) := by
  have earlier : ∀ c < cnt, getNtpTime (net.temp i c) (net.exchange i c) = none :=
    fun c before => getNtpTime_none (first.earlier c before)
  rw [tries, Occurs.findSome_first first.inTime earlier (by rw [first.received]; rfl), first.received]

theorem servers_first {net : Net} {i : Nat} {netTm : Tm} (socket : ∀ j ≤ i, net.socket j = true)
    (found : tries net i = some netTm) {ips : List CStr} {k : Nat} (reached : k ≤ i)
    (listed : i < k + ips.length) (before : ∀ j < i, tries net j = none) :
    (servers net k ips).1 = 0 ∧ times (servers net k ips).2 = [netTm.shown] := by
  induction ips generalizing k with
  | nil =>
    simp only [List.length_nil] at listed
    omega
  | cons ip rest ih =>
    rw [servers, socket k reached]
    by_cases here : k = i
    · subst here
      simp [found, times]
    · have next : k + 1 ≤ i := by omega
      have later := ih next (by simp at listed; omega)
      simpa [before k (by omega), times] using later

theorem main_shows {net : Net} {i cnt : Nat} {datagram : List Byte} (first : FirstReply net i cnt datagram) :
    ∃ netTm, getNtpTime (net.temp i cnt) (.reply datagram) = some netTm ∧ (main net).1 = 0 ∧
      times (main net).2 = [netTm.shown] := by
  have found := tries_first first
  have some : ∃ netTm, getNtpTime (net.temp i cnt) (.reply datagram) = some netTm := ⟨_, rfl⟩
  obtain ⟨netTm, got⟩ := some
  rw [got] at found
  have listed := first.listed
  exact ⟨netTm, got, servers_first first.socket found (Nat.zero_le i) (by simpa [ip] using listed)
    fun j before => tries_none (first.before j before)⟩

/-- Eight more on the hour alone are the date and time of eight hours later exactly when no day
    begins in between. -/
theorem later_civil_iff {timet : BitVec 64} {t : Nat} (value : timet.toNat = t) :
    ({ gmtime timet with tmHour := (gmtime timet).tmHour + 8 } : Tm).shown.Civil (t + 28800) ↔
      t % 86400 < 57600 := by
  have valid := Calendar.ofSeconds_valid t
  have seconds := Calendar.seconds_ofSeconds t
  have fields : gmtime timet = (let c := Calendar.ofSeconds t
      ⟨c.year - 1900, c.month - 1, c.day, c.hour, c.minute, c.second⟩) := by rw [gmtime, value]
  rw [fields]
  generalize Calendar.ofSeconds t = c at valid seconds
  have hour := valid.hour
  have minute := valid.minute
  have second := valid.second
  rw [Calendar.Civil.seconds] at seconds
  constructor
  · rintro ⟨d, also, _, same⟩
    have next := also.hour
    simp only [Tm.shown, Shown.mk.injEq] at same
    omega
  · intro before
    refine ⟨{ c with hour := c.hour + 8 }, ⟨valid.year, valid.month, valid.day, ?_, minute, second⟩, ?_, ?_⟩
    · dsimp only
      omega
    · have later : c.days * 86400 + (c.hour + 8) * 3600 + c.minute * 60 + c.second = t + 28800 := by grind
      exact later
    · simp [Tm.shown]

/-- The time that is shown for a reply is that of eight hours later exactly when it is before 16
    o'clock. -/
theorem shown_time_local_iff {net : Net} {i cnt timestamp : Nat} {datagram : List Byte}
    (small : timestamp < 4294967296) (first : FirstReply net i cnt datagram)
    (stamped : transmitTimestamp datagram = BigEndian.bytesOf 4 timestamp) :
    ∃ shown, (main net).1 = 0 ∧ times (main net).2 = [shown] ∧
      (shown.Civil (unixTime timestamp + 28800) ↔ unixTime timestamp % 86400 < 57600) := by
  obtain ⟨netTm, got, ended, shows⟩ := main_shows first
  refine ⟨netTm.shown, ended, shows, ?_⟩
  have swapped := ntohl_copied (net.temp i cnt) (show (transmitTimestamp datagram).length = 4 by
    rw [stamped, BigEndian.length_bytesOf])
  have value := BigEndian.value_bytesOf 4 timestamp (by omega)
  rw [stamped, value] at swapped
  simp only [getNtpTime, Option.some.injEq] at got
  rw [stamped, swapped] at got
  rw [← got]
  exact later_civil_iff (unix_seconds timestamp)

end Displayed

section Sample

def stampedReply (timestamp : Nat) : List Byte :=
  List.replicate 40 0 ++ BigEndian.bytesOf 4 timestamp ++ List.replicate 4 0

def answering (timestamp : Nat) : Net where
  socket := fun _ => true
  exchange := fun _ _ => .reply (stampedReply timestamp)
  temp := fun _ _ => 0xffffffffffffffff

theorem last_second_shown :
    ∃ shown, times (main (answering 3660566399)).2 = [shown] ∧ shown.Civil (unixTime 3660566399 + 28800) := by
  have first : FirstReply (answering 3660566399) 0 0 (stampedReply 3660566399) :=
    ⟨by decide, by decide, fun _ _ => rfl, fun j before => absurd before (Nat.not_lt_zero j),
      fun c before => absurd before (Nat.not_lt_zero c), rfl⟩
  have stamped : transmitTimestamp (stampedReply 3660566399) = BigEndian.bytesOf 4 3660566399 := by decide
  obtain ⟨shown, _, shows, iff⟩ := shown_time_local_iff (by decide) first stamped
  exact ⟨shown, shows, iff.mpr (by decide)⟩

/-- For a reply of 16 o'clock the client shows 2015/12/31 24:0:0, and it is a new year. -/
theorem midnight_shown_as_24 :
    times (main (answering 3660566400)).2 = [⟨2015, 12, 31, 24, 0, 0⟩] ∧
    Calendar.ofSeconds (unixTime 3660566400 + 28800) = ⟨2016, 1, 1, 0, 0, 0⟩ ∧
    ¬Shown.Civil ⟨2015, 12, 31, 24, 0, 0⟩ (unixTime 3660566400 + 28800) := by
  refine ⟨by decide, by decide, ?_⟩
  rintro ⟨c, valid, _, same⟩
  have hour := valid.hour
  simp only [Shown.mk.injEq] at same
  omega

end Sample

end TestSource.Ntp
