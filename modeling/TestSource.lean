import TestSource.LinkedHeap
import TestSource.Runs
import TestSource.Message
import TestSource.Crc32
import TestSource.CrcRegister
import TestSource.CrcTools
import TestSource.DeviceLimits
import TestSource.PartitionLaws
import TestSource.Registry
import TestSource.DeviceLaws
import TestSource.QueryThread
import TestSource.MountLog
import TestSource.MountTable
import TestSource.DetectPartition
import TestSource.QueryPass
import TestSource.Upgrade
import TestSource.TrxBurn
import TestSource.MkFlashImg
import TestSource.MkImage
import TestSource.ProbeWorker
import TestSource.TestThreads
import TestSource.EraseFlash
import TestSource.EraseChip
import TestSource.Base64
import TestSource.PrivateFlash
import TestSource.Hotplug
import TestSource.Download
import TestSource.Recorded
import TestSource.UImage
import TestSource.EraseRegions
import TestSource.RemovalScan
import TestSource.PartitionQuery
import TestSource.DetectBatch
import TestSource.Uevent
import TestSource.BigEndian
import TestSource.Decode
import TestSource.Numeral
import TestSource.CompareVersion
import TestSource.RouterId
import TestSource.HttpParse
import TestSource.ProbeRetries
import TestSource.QueryStatus
import TestSource.OnesComplement
import TestSource.Ping
import TestSource.Base64Room
import TestSource.SpeedLog
import TestSource.TextLines
import TestSource.Opkg
import TestSource.Jsonp
import TestSource.ParseSpeed
import TestSource.Calendar
import TestSource.NtpClient
import TestSource.SelectServer
import TestSource.JsonPrint
import TestSource.JsonParse
import TestSource.JsonText
import TestSource.JsonAccepted
import TestSource.JsonMinify
import TestSource.Extremes
import TestSource.DosIo
import TestSource.DosFat
import TestSource.DosRepair
import TestSource.DosChains
import TestSource.DosReclaim
import TestSource.BitString
import TestSource.QrDecode
import TestSource.QrVersion
import TestSource.QrSplit
