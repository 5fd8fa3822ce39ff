import AvrProgrammer.Firmware.Pins
import AvrProgrammer.Firmware.Sessions
import AvrProgrammer.Firmware.Discipline
import AvrProgrammer.Software.Gating
import AvrProgrammer.Software.Report
import AvrProgrammer.Software.Lifecycle
import AvrProgrammer.Software.Extended
import AvrProgrammer.Software.Bounds
import AvrProgrammer.System.Write
import AvrProgrammer.System.Placement
import AvrProgrammer.System.Timeouts
import AvrProgrammer.System.Identify
import AvrProgrammer.System.TestPrograms
import AvrProgrammer.Software.MainPc
import AvrProgrammer.Firmware.Latency
import AvrProgrammer.System.Live
import AvrProgrammer.System.Interrupted
import AvrProgrammer.System.Replies
import AvrProgrammer.System.Content
import AvrProgrammer.System.Overlap
import AvrProgrammer.System.Store
import AvrProgrammer.System.Cost
import AvrProgrammer.System.Truth
import AvrProgrammer.Software.Kinds
import AvrProgrammer.Firmware.Boutons
