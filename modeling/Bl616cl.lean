import Bl616cl.Lib.Run
import Bl616cl.Lib.Ring
import Bl616cl.Lib.Word
import Bl616cl.Hci.Parser
import Bl616cl.Hci.Transport
import Bl616cl.Hci.Packet
import Bl616cl.Hci.Feed
import Bl616cl.Hci.Framing
import Bl616cl.Hci.Resync
import Bl616cl.Hci.Queues
import Bl616cl.Usb.Device
import Bl616cl.Usb.Out
import Bl616cl.Usb.Read
import Bl616cl.Usb.In
import Bl616cl.Usb.Bus
import Bl616cl.Serial.HardwareSerial
import Bl616cl.Serial.Fifo
import Bl616cl.Prefs.WString
import Bl616cl.Prefs.EasyFlash
import Bl616cl.Prefs.Preferences
import Bl616cl.Prefs.Gets
import Bl616cl.Prefs.Puts
import Bl616cl.Prefs.Map
import Bl616cl.Prefs.Atomic
import Bl616cl.Prefs.ReadOnly
import Bl616cl.Prefs.Race
import Bl616cl.Tls.WiFiClientSecure
import Bl616cl.Tls.Independence
import Bl616cl.Tls.Session
import Bl616cl.Tls.DeadSocket
import Bl616cl.Tls.Plaintext
import Bl616cl.Runtime.Patches
import Bl616cl.Runtime.CacheKey
import Bl616cl.Runtime.Cache
import Bl616cl.Runtime.Concurrent
import Bl616cl.Runtime.Apart
import Bl616cl.Lib.Memory
import Bl616cl.Net.Lwip
import Bl616cl.Net.WiFiUdp
import Bl616cl.Net.Datagrams
import Bl616cl.Tls.Pairing
import Bl616cl.Net.WiFiClient
import Bl616cl.Net.Connect
import Bl616cl.Tls.Connect
import Bl616cl.Lib.Owner
import Bl616cl.Net.WiFiServer
import Bl616cl.Net.Owners
import Bl616cl.Net.World
import Bl616cl.Prefs.Decode
import Bl616cl.Prefs.Clear
import Bl616cl.Wifi.Station
import Bl616cl.Wifi.Scan
import Bl616cl.Ping.Session
import Bl616cl.Lib.Handles
import Bl616cl.Fs.Files
import Bl616cl.Ping.Echo
import Bl616cl.Ping.Reports
import Bl616cl.Ping.Pinger
import Bl616cl.Ping.Traffic
import Bl616cl.Wifi.Config
import Bl616cl.Fs.Access
import Bl616cl.Fs.Mount
import Bl616cl.Lib.Numeral
import Bl616cl.Core.Stdlib
import Bl616cl.Core.Print
import Bl616cl.Core.Integers
import Bl616cl.Core.IPAddress
import Bl616cl.Lib.Rounding
import Bl616cl.Core.Dtostrf
import Bl616cl.Lib.Heap
import Bl616cl.Core.WString
import Bl616cl.Core.Sequences
import Bl616cl.Hci.Sound
import Bl616cl.Hci.Wait
import Bl616cl.Lib.Top
import Bl616cl.Runtime.Prune
import Bl616cl.Runtime.Multilib
import Bl616cl.Lib.Text
import Bl616cl.Runtime.Clean
import Bl616cl.Core.Stream
import Bl616cl.Lib.Quoted
import Bl616cl.Runtime.Digest
import Bl616cl.Runtime.Fingerprint
import Bl616cl.Lib.Bits
import Bl616cl.Lib.Bytes
import Bl616cl.Lib.Wp
import Bl616cl.Lfs.Util
import Bl616cl.Lfs.Ctz
import Bl616cl.Lfs.Blocks
import Bl616cl.Lfs.SkipList
import Bl616cl.Lfs.Contents
import Bl616cl.Lfs.File
import Bl616cl.Lfs.Writer
import Bl616cl.Lfs.Reader
import Bl616cl.Lfs.Flush
import Bl616cl.Lfs.Write
import Bl616cl.Lfs.Operations
import Bl616cl.Lfs.Session
import Bl616cl.Lib.Crc
import Bl616cl.Lfs.Crc
import Bl616cl.Lfs.Cache
import Bl616cl.Lfs.CacheRead
import Bl616cl.Lfs.CacheProg
import Bl616cl.Lfs.CacheRun
import Bl616cl.Lfs.Alloc
import Bl616cl.Lfs.AllocRun
import Bl616cl.Lfs.CacheFault
