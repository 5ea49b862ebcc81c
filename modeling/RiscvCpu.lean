import RiscvCpu.Core.Access
import RiscvCpu.Core.Refinement
import RiscvCpu.Bus.Sequential
import RiscvCpu.Bus.Burst
import RiscvCpu.Bus.Transaction
import RiscvCpu.Reset
import RiscvCpu.Devices
import RiscvCpu.Emulator
import RiscvCpu.Verilate.BlockMemory
import RiscvCpu.Verilate.CBusDevice
import RiscvCpu.Verilate.Confreg
import RiscvCpu.Verilate.MemoryFile
import RiscvCpu.Verilate.MemoryRouter
import RiscvCpu.Verilate.RunParallel
