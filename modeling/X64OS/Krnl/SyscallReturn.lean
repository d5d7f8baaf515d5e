import X64OS.Arch.Interrupts

namespace X64OS.Krnl

open Framework.X86 Sched Arch Function

section Return

variable {m : Machine} {ctx : CpuCtx}

end Return

section Entry

variable (c : Cpu)

end Entry

end X64OS.Krnl
