import Katmai.Autofree.DeferredFree
import Katmai.Buffer.BufferProtocol
import Katmai.Cmdlintf.RemoteExecution
import Katmai.Cron.CronTable
import Katmai.Cron.LineMatching
import Katmai.Cron.ParserArithmetic
import Katmai.FileServer.LoopSurvival
import Katmai.FileServer.Registration
import Katmai.Ftpclient.ReplyFraming
import Katmai.Ftpclient.Restart
import Katmai.Genpdu.PduDispatch
import Katmai.Hdllio.OpenHistory
import Katmai.Holktv.CommandSafety
import Katmai.Holktv.DecryptChunking
import Katmai.Holktv.HeaderErrors
import Katmai.Holktv.PluginErrors
import Katmai.Holktv.VolumeStrings
import Katmai.Koklib.SongFile
import Katmai.LyricsOsd.RecordBounds
import Katmai.Mactable.SaveLoad
import Katmai.Mactable.Verify
import Katmai.Md5sum.DigestObject
import Katmai.MiniFilexchg.BufferBounds
import Katmai.MiniFilexchg.FileDownload
import Katmai.MiniFilexchg.FileUpload
import Katmai.Misclib.Lprintf
import Katmai.Mqueue.DequeueTermination
import Katmai.Mqueue.QueueDelivery
import Katmai.Playlist.WrittenList
import Katmai.Pqueue.FifoMode
import Katmai.Pqueue.PriorityMode
import Katmai.Rbmcast.ChecksumAgreement
import Katmai.Rbmcast.WindowBuffer
import Katmai.Regexlib.LastMatch
import Katmai.Rmimage256.Clipping
import Katmai.Simconf.FirstWriter
import Katmai.SslLib.Segmentation
import Katmai.SslLib.ServerSelection
import Katmai.StioEngine.KeepReplay
import Katmai.StioEngine.PrefetchStream
import Katmai.StioEngine.ReadPosition
import Katmai.StreamMpeg.PushLoop
import Katmai.StreamMpeg.StopRequest
import Katmai.StreamioV2.ChannelTables
import Katmai.StreamioV2.FetchDelivery
import Katmai.StreamioV2.ReadPrefix
import Katmai.StreamioV2.ServedPackets
import Katmai.StreamioV3.FillBounds
import Katmai.StreamioV3.OpenAgreement
import Katmai.StreamioV3.OpenFileCount
import Katmai.StreamioV3.OpenRetransmission
import Katmai.StreamioV3.PassCompleteness
import Katmai.StreamioV3.PreferredServer
import Katmai.StreamioV3.ReadStream
import Katmai.StreamioV3.TableBounds
import Katmai.SysConf.Branches
import Katmai.SysConf.LexerLines
import Katmai.SysConf.ListLiterals
import Katmai.SysConf.StoreMap
import Katmai.Tables.StableSlots
import Katmai.Tcplib.ChildReaping
import Katmai.ThreadSvc.StopSafety
import Katmai.Ttpseng.DictConsistency
import Katmai.Ttpseng.LineWrap
import Katmai.Ttpseng.TextReplay
import Katmai.Udpcmdrcv.TransferLock
import Katmai.XObject.ObjectList
import Katmai.XObject.StringHash
import Katmai.Xlist.LinkedVariant
