import WddProc.ConfigHeap
import WddProc.ConfigNumbers
import WddProc.ConfigStrings
import WddProc.ConfigTypes
import WddProc.Delivery
import WddProc.Downlink
import WddProc.GenerateJson
import WddProc.HwTable
import WddProc.LoadFile
import WddProc.MainLoop
import WddProc.PackFailure
import WddProc.RateLimit
import WddProc.Rescale
import WddProc.Scaling
import WddProc.SendResult
import WddProc.TableMemory
import WddProc.Threads
import WddProc.CJsonNumberText
import WddProc.ReportHeap
