import Bertos.Fs.AllocMap
import Bertos.Net.TftpHostile
import Bertos.Boot.Check
import Bertos.Mware.Readline
import Bertos.Common.DliStat
import Bertos.Kern.Msg
import Bertos.Kern.Rtask
import Bertos.Mware.EventSelect
import Bertos.Kern.SemAsserts
import Bertos.Kern.ReadyOrder
import Bertos.Struct.HeapRuns
import Bertos.Net.PocketBus
import Bertos.Net.Ax25Frames
import Bertos.Net.AfskBits
import Bertos.Struct.HashTableMap
import Bertos.Struct.Fifo
import Bertos.Io.KBlockArray
import Bertos.Io.KFileFlat
import Bertos.Net.XmodemTransfer
import Bertos.Net.LwipMutexInv
import Bertos.Net.LwipMboxInv
import Bertos.Algo.Rle
import Bertos.Sec.Digests
import Bertos.Sec.Omac
import Bertos.Sec.Feistel
import Bertos.Sec.Hmac
import Bertos.Sec.Pbkdf2
import Bertos.Mware.FormatwrReduced
import Bertos.Net.LwipSemWait
import Bertos.Drv.RampRun
import Bertos.Net.AfskDemod
import Bertos.Sec.HmacAbandon
import Bertos.Sec.YarrowPool
import Bertos.Fs.FindFile
import Bertos.Gfx.Blit
import Bertos.Gui.Menu
import Bertos.Kern.RoundRobin
import Bertos.Algo.CrcBurst
