import LuaAdaLoad.Control.Weakest
import LuaAdaLoad.System.Paths

/-!
# `sd-cpuidx86`

`sd-cpuidx86 name` tells one thing about the processor: whether it has a feature, or the size of a
cache or of a cache line. The program executes `cpuid` for some values of EAX, keeps what it learns
in `cpu` and prints one line. The processor is a parameter that says what every execution of the
instruction answers, since it need not answer the same each time.
-/

namespace LuaAdaLoad.Sysdeps.CpuidX86

open LuaAdaLoad.Control.Actions LuaAdaLoad.System.Paths

/-! ### The processor -/

abbrev Word := BitVec 32

/-- The registers that `cpuid` fills. -/
structure Registers where
  eax : Word
  ebx : Word
  ecx : Word
  edx : Word
deriving DecidableEq

/-- The processor: whether it has the instruction, and what its `k`th execution answers for a value of
EAX. An `unsigned long` has `longBits` bits. -/
structure Processor where
  supported : Bool
  answer : ℕ → Word → Registers
  longBits : ℕ

/-- `CPU_VENDOR_…`. -/
inductive Vendor where
  | unknown
  | amd
  | centaur
  | cyrix
  | intel
  | natsemi
  | rise
  | transmeta
  | sis
deriving DecidableEq

/-- `struct cpu_info`, the fields that are read. -/
structure CpuInfo where
  vendor : Vendor
  cacheL1Instruction : Word
  cacheL1Data : Word
  cacheL2 : Word
  cacheL3 : Word
  cacheline : Word
  flags : Word
  maxExtendedParam : Word
deriving DecidableEq

/-- `cpu`, and how many times `cpuid` was executed. -/
structure Probe where
  cpu : CpuInfo
  calls : ℕ

/-- Static variables are zero at the start. -/
def Probe.initial : Probe := ⟨⟨.unknown, 0, 0, 0, 0, 0, 0, 0⟩, 0⟩

/-- The log has what is printed. -/
abbrev Proc := Act Processor Empty Probe CString

def cpuid (val : Word) : Proc Registers := step fun p s =>
  (p.answer s.calls val, { s with calls := s.calls + 1 })

def setCpu (f : CpuInfo → CpuInfo) : Proc Unit := modify fun s => { s with cpu := f s.cpu }

/-! ### Tables -/

/-- `struct cache_description`. -/
structure CacheDescription where
  val : BitVec 8
  size : Word
  line : Word
deriving DecidableEq

/-- The end of each table of caches. -/
def tableEnd : CacheDescription := ⟨0, 0, 0⟩

def intelL1iCaches : List CacheDescription :=
  [⟨0x06, 8, 32⟩, ⟨0x08, 16, 32⟩, ⟨0x09, 32, 64⟩, ⟨0x15, 16, 32⟩, ⟨0x30, 32, 64⟩, ⟨0x77, 16, 64⟩,
    tableEnd]

def intelL1dCaches : List CacheDescription :=
  [⟨0x0a, 8, 32⟩, ⟨0x0c, 16, 32⟩, ⟨0x0d, 16, 64⟩, ⟨0x10, 16, 32⟩, ⟨0x2c, 32, 64⟩, ⟨0x60, 16, 64⟩,
    ⟨0x66, 8, 64⟩, ⟨0x67, 16, 64⟩, ⟨0x68, 32, 64⟩, tableEnd]

def intelL2Caches : List CacheDescription :=
  [⟨0x21, 256, 64⟩, ⟨0x39, 128, 64⟩, ⟨0x3a, 192, 64⟩, ⟨0x3b, 128, 64⟩, ⟨0x3c, 256, 64⟩,
    ⟨0x3d, 384, 64⟩, ⟨0x3e, 512, 64⟩, ⟨0x41, 128, 32⟩, ⟨0x42, 256, 32⟩, ⟨0x43, 512, 32⟩,
    ⟨0x44, 1024, 32⟩, ⟨0x45, 2048, 32⟩, ⟨0x48, 3072, 64⟩, ⟨0x49, 4096, 64⟩, ⟨0x4e, 6144, 64⟩,
    ⟨0x78, 1024, 64⟩, ⟨0x79, 128, 64⟩, ⟨0x7a, 256, 64⟩, ⟨0x7b, 512, 64⟩, ⟨0x7c, 1024, 64⟩,
    ⟨0x7d, 2048, 64⟩, ⟨0x7f, 512, 64⟩, ⟨0x82, 256, 32⟩, ⟨0x83, 512, 32⟩, ⟨0x84, 1024, 32⟩,
    ⟨0x85, 2048, 32⟩, ⟨0x86, 512, 64⟩, ⟨0x87, 1024, 64⟩, tableEnd]

def intelL3Caches : List CacheDescription :=
  [⟨0x22, 512, 64⟩, ⟨0x23, 1024, 64⟩, ⟨0x25, 2048, 64⟩, ⟨0x29, 4096, 64⟩, ⟨0xd0, 524288, 64⟩,
    ⟨0xd1, 1048576, 64⟩, ⟨0xd2, 2097152, 64⟩, ⟨0xd6, 1048576, 64⟩, ⟨0xd7, 2097152, 64⟩,
    ⟨0xd8, 8388608, 64⟩, ⟨0xdc, 1572864, 64⟩, ⟨0xdd, 3145728, 64⟩, ⟨0xde, 6291456, 64⟩,
    ⟨0xe2, 2097152, 64⟩, ⟨0xe3, 4194304, 64⟩, ⟨0xe4, 8388608, 64⟩, ⟨0xea, 12582912, 64⟩,
    ⟨0xeb, 18874368, 64⟩, ⟨0xec, 25165824, 64⟩, tableEnd]

/-- `vendors`, by what `cpuid` leaves in EBX. -/
def vendors : List (Word × Vendor) :=
  [(0x756e6547, .intel), (0x68747541, .amd), (0x69727943, .cyrix), (0x746e6543, .centaur),
    (0x646f6547, .natsemi), (0x52697365, .rise), (0x65736952, .rise), (0x20536953, .sis)]

/-- `SD_SYSINFO_CPU_EXT_…`. -/
def extMmx : Word := 0x0001

def extMmx2 : Word := 0x0002

def ext3dnow : Word := 0x0004

def ext3dnowext : Word := 0x0008

def extSse : Word := 0x0010

def extSse2 : Word := 0x0020

def extSse3 : Word := 0x0040

def extSse41 : Word := 0x0080

def extSse42 : Word := 0x0100

/-- `features`. -/
def features : List (CString × Word) :=
  [("mmx".toList, extMmx), ("mmx2".toList, extMmx2), ("3dnow".toList, ext3dnow),
    ("3dnowext".toList, ext3dnowext), ("sse".toList, extSse), ("sse2".toList, extSse2),
    ("sse3".toList, extSse3), ("sse4.1".toList, extSse41), ("sse4.2".toList, extSse42)]

/-! ### Caches -/

/-- `while (cdesc->val)` in `cpu_check_cache_list`. -/
def searchCaches (descriptorId : BitVec 8) : List CacheDescription → Option CacheDescription
  | [] => none
  | cdesc :: cdescs =>
    if cdesc.val = 0 then none
    else if cdesc.val = descriptorId then some cdesc
    else searchCaches descriptorId cdescs

def cpuCheckCacheList (cacheList : List CacheDescription) (descriptorId : BitVec 8) :
    Option CacheDescription :=
  if descriptorId ≠ 0 then searchCaches descriptorId cacheList else none

/-- Unpack a register and check each byte. -/
def cpuCheckCacheListByRegister (cacheList : List CacheDescription) (regValue : Word) :
    Option CacheDescription :=
  cpuCheckCacheList cacheList ((regValue >>> 24 &&& 0xff).setWidth 8) <|>
    cpuCheckCacheList cacheList ((regValue >>> 16 &&& 0xff).setWidth 8) <|>
    cpuCheckCacheList cacheList ((regValue >>> 8 &&& 0xff).setWidth 8) <|>
    cpuCheckCacheList cacheList ((regValue &&& 0xff).setWidth 8)

/-- A register whose highest bit is set tells nothing. -/
def telling (regValue : Word) : Word := if regValue &&& 0x80000000 ≠ 0 then 0 else regValue

/-- The loop of `cpu_cache_size`, with so many rounds left. -/
def cacheLoop (ctab : List CacheDescription) : ℕ → Proc (Option CacheDescription)
  | 0 => pure none
  | k + 1 => do
    let r ← cpuid 0x00000002
    match cpuCheckCacheListByRegister ctab (telling r.eax) <|>
        cpuCheckCacheListByRegister ctab (telling r.ebx) <|>
        cpuCheckCacheListByRegister ctab (telling r.ecx) <|>
        cpuCheckCacheListByRegister ctab (telling r.edx) with
    | some cdesc => pure (some cdesc)
    | none => cacheLoop ctab k

/-- `cpu_cache_size`; the size goes where `setSize` puts it. -/
def cpuCacheSize (ctab : List CacheDescription) (setSize : Word → CpuInfo → CpuInfo) :
    Proc Unit := do
  let r ← cpuid 0x00000002
  match ← cacheLoop ctab (r.eax &&& 0xff).toNat with
  | some cdesc => setCpu fun cpu => { setSize cdesc.size cpu with cacheline := cdesc.line }
  | none => pure ()

/-! ### Vendors -/

def cpuDetectVendor : Proc Unit := do
  let r ← cpuid 0x00000000
  setCpu fun cpu => { cpu with
    vendor := vendors.foldl (fun vendor v => if r.ebx = v.1 then v.2 else vendor) cpu.vendor }

/-- `if (reg & mask) flags |= ext`. -/
def flagged (reg mask ext flags : Word) : Word := if reg &&& mask ≠ 0 then flags ||| ext else flags

def cpuVendorIntel : Proc Unit := do
  let r ← cpuid 0x00000001
  setCpu fun cpu => { cpu with flags := flagged r.edx 0x00800000 extMmx cpu.flags }
  setCpu fun cpu => { cpu with flags := flagged r.edx 0x02000000 extMmx2 cpu.flags }
  setCpu fun cpu => { cpu with flags := flagged r.edx 0x02000000 extSse cpu.flags }
  setCpu fun cpu => { cpu with flags := flagged r.edx 0x04000000 extSse2 cpu.flags }
  setCpu fun cpu => { cpu with flags := flagged r.ecx 0x00000001 extSse3 cpu.flags }
  setCpu fun cpu => { cpu with flags := flagged r.ecx 0x00080000 extSse41 cpu.flags }
  setCpu fun cpu => { cpu with flags := flagged r.ecx 0x00100000 extSse42 cpu.flags }
  cpuCacheSize intelL1iCaches fun size cpu => { cpu with cacheL1Instruction := size }
  cpuCacheSize intelL1dCaches fun size cpu => { cpu with cacheL1Data := size }
  cpuCacheSize intelL2Caches fun size cpu => { cpu with cacheL2 := size }
  cpuCacheSize intelL3Caches fun size cpu => { cpu with cacheL3 := size }

def cpuVendorAmd : Proc Unit := do
  let _ ← cpuid 0x00000001
  if 0x80000005 ≤ (← get).cpu.maxExtendedParam then
    let r ← cpuid 0x80000005
    setCpu fun cpu => { cpu with
      cacheL1Data := r.ecx >>> 24
      cacheline := r.ecx &&& 0xff
      cacheL1Instruction := r.edx >>> 24 }
  if 0x80000006 ≤ (← get).cpu.maxExtendedParam then
    let r ← cpuid 0x80000006
    setCpu fun cpu => { cpu with cacheL2 := r.ecx >>> 24 }

/-! ### The main program -/

/-- The features that all vendors may have. -/
def commonFeatures : Proc Unit := do
  let r ← cpuid 0x80000000
  if 0x80000001 ≤ r.eax then
    let r ← cpuid 0x80000001
    setCpu fun cpu => { cpu with flags := flagged r.edx 0x00800000 extMmx cpu.flags }
    setCpu fun cpu => { cpu with flags := flagged r.edx 0x00400000 extMmx2 cpu.flags }
    setCpu fun cpu => { cpu with flags := flagged r.edx 0x80000000 ext3dnow cpu.flags }
    setCpu fun cpu => { cpu with flags := flagged r.edx 0x40000000 ext3dnowext cpu.flags }

/-- `cpu_check_features`: what is printed for a name that is known. -/
def cpuCheckFeatures (cpu : CpuInfo) (name : CString) : Option CString :=
  (features.find? fun feature => feature.1 = name).map fun feature =>
    if cpu.flags &&& feature.2 ≠ 0 then "1\n".toList else "0\n".toList

/-- `"%lu\n"`. -/
def line (value : ℕ) : CString := Nat.toDigits 10 value ++ ['\n']

/-- `return !!printf ("%lu\n", …)`: something is printed, and so the status is 1. -/
def printSize (size shift : ℕ) : Proc ℕ := do
  let p ← ask
  note (line (size <<< shift % 2 ^ p.longBits))
  pure 1

/-- The end of `main`. -/
def answerName (name : CString) : Proc ℕ := do
  let cpu := (← get).cpu
  if let some text := cpuCheckFeatures cpu name then
    note text
    pure 0
  else if name = "l1icachesize".toList then printSize cpu.cacheL1Instruction.toNat 10
  else if name = "l1dcachesize".toList then printSize cpu.cacheL1Data.toNat 10
  else if name = "l2cachesize".toList then printSize cpu.cacheL2.toNat 10
  else if name = "l3cachesize".toList then printSize cpu.cacheL3.toNat 10
  else if name = "cacheline".toList then printSize cpu.cacheline.toNat 0
  else
    note "0\n".toList
    pure 0

/-- `main`: its exit status. -/
def main : List CString → Proc ℕ
  | _ :: name :: _ => do
    if !(← ask).supported then
      note "0\n".toList
      pure 0
    else
      let _ ← cpuid 0x00000000
      let r ← cpuid 0x80000000
      setCpu fun cpu => { cpu with maxExtendedParam := r.eax }
      let _ ← cpuid 0xC0000000
      cpuDetectVendor
      match (← get).cpu.vendor with
      | .amd => cpuVendorAmd
      | .intel => cpuVendorIntel
      | _ => pure ()
      commonFeatures
      answerName name
  | _ => pure 1

end LuaAdaLoad.Sysdeps.CpuidX86
