import DmaCpu.Xv6.WriteResult
import DmaCpu.Xv6.OpenFiles
import DmaCpu.Xv6.ArenaRun
import DmaCpu.Xv6.ExecAtomic
import DmaCpu.Xv6.RoundRobin
import DmaCpu.Xv6.Fifo
import DmaCpu.Xv6.Clock
import DmaCpu.Emu.ClassicRefines
import DmaCpu.Emu.CompactRefines
import DmaCpu.Emu.Timers
import DmaCpu.Emu.Run
import DmaCpu.Dmx.Agree
import DmaCpu.Kflash.Cut
import DmaCpu.Fat.Exact
import DmaCpu.Llir.Sound
import DmaCpu.Dmaasm.Symbols
import DmaCpu.Dmaasm.Counts
import DmaCpu.Cc.Intrinsics
