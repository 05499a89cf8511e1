import MiniWin.Mwfs.Space
import MiniWin.Net.TcpRecv
import MiniWin.Mm.HeapRun
import MiniWin.Net.TlsSeq
import MiniWin.Net.TlsAuth
import MiniWin.Net.TlsCuts
import MiniWin.Mm.PagesFree
import MiniWin.Net.DnsQuery
import MiniWin.Net.HttpBounds
import MiniWin.Net.HttpLength
import MiniWin.Net.HttpChunked
import MiniWin.Storage.CreateRight
import MiniWin.Mwfs.RepairFaulty
import MiniWin.Net.ArpCache
import MiniWin.Net.DhcpRetry
import MiniWin.Net.RsaVerify
import MiniWin.Net.SentAccepted
import MiniWin.Web.Links
import MiniWin.Net.X509Memory
import MiniWin.Net.X509Closed
import MiniWin.Net.X509Host
import MiniWin.Crypto.Sha2Digest
import MiniWin.Crypto.GcmRight
import MiniWin.Crypto.X25519Right
import MiniWin.Crypto.EcdsaRight
import MiniWin.Input.HangulRight
import MiniWin.Web.CssLenRight
import MiniWin.Web.Cells
import MiniWin.Web.FlexRight
import MiniWin.Web.TableRight
import MiniWin.Rtc
import MiniWin.Sdk.Numbers
import MiniWin.Ui.ScrollBar
import MiniWin.Compress.Lz4Compress
import MiniWin.Usb.Pointer
import MiniWin.Usb.Keyboard
import MiniWin.Programs.TrailerRight
import MiniWin.Sdk.PrintfRight
import MiniWin.Web.Request
import MiniWin.Usb.DescriptorRight
import MiniWin.Ui.ProgWin
import MiniWin.Storage.PartitionsRight
import MiniWin.Ui.FolderTree
import MiniWin.Crypto.EccMemory
import MiniWin.Crypto.AesRight
import MiniWin.Net.TlsKeysRight
import MiniWin.Apps.DocNumbers
import MiniWin.Mwfs.NamedTree
