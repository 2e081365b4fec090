import Mathlib.Data.List.TakeWhile
import LuaAdaLoad.Sysdeps.CpuidX86

/-!
# What `sd-cpuidx86` answers

The answers of a processor have a meaning of their own: a bit of a register says that it has a
feature (`Has`), a byte describes a cache (`cacheIn`), a field has a size (`Cache.size`, `lineSize`).
For a processor that always answers the same, the program prints what the answers mean for the word
it was given (`answers`).

* the tables: `byRegister_eq`, `telling_eq`, `cacheOf_eq` (bytes, and which registers tell them),
  `wp_cacheLoop` (the first answer that tells of a cache);
* the makers: `wp_cpuVendorIntel`, `wp_cpuVendorAmd`, `vendorOf_intel`, `vendorOf_amd`;
* the flags: `flagged_getLsbD` for one of them, `flag_iff` for all that are set.
-/

namespace LuaAdaLoad.Sysdeps.ProcessorAnswers

open LuaAdaLoad.Control.Actions LuaAdaLoad.Control.Weakest LuaAdaLoad.System.Paths
open LuaAdaLoad.Sysdeps.CpuidX86

/-! ### Descriptors -/

/-- The entries of a table of caches, without its end. -/
def entriesOf (cacheList : List CacheDescription) : List CacheDescription :=
  cacheList.takeWhile fun cdesc => cdesc.val ≠ 0

/-- The entry that describes a byte. -/
def described (cacheList : List CacheDescription) (b : BitVec 8) : Option CacheDescription :=
  (entriesOf cacheList).find? fun cdesc => cdesc.val = b

/-- The bytes of a register, the highest first. -/
def bytesOf (reg : Word) : List (BitVec 8) :=
  [reg.extractLsb' 24 8, reg.extractLsb' 16 8, reg.extractLsb' 8 8, reg.extractLsb' 0 8]

/-- What a register tells: its bytes, unless its highest bit is set. -/
def toldBy (reg : Word) : List (BitVec 8) := if reg.msb then [] else bytesOf reg

/-- The descriptors in an answer. -/
def descriptorsOf (r : Registers) : List (BitVec 8) := [r.eax, r.ebx, r.ecx, r.edx].flatMap toldBy

/-- The cache that an answer tells of: that of the first byte with an entry. -/
def cacheOf (r : Registers) (cacheList : List CacheDescription) : Option CacheDescription :=
  (descriptorsOf r).findSome? (described cacheList)

theorem searchCaches_eq (b : BitVec 8) (cacheList : List CacheDescription) :
    searchCaches b cacheList = described cacheList b := by
  induction cacheList with
  | nil => rfl
  | cons cdesc cdescs ih =>
    rw [searchCaches]
    by_cases hend : cdesc.val = 0
    · simp [hend, described, entriesOf]
    · rw [if_neg hend, ih, described, described, entriesOf, entriesOf,
        List.takeWhile_cons_of_pos (by simpa using hend), List.find?_cons]
      by_cases hb : cdesc.val = b
      · simp [hb]
      · simp [hb]

/-- No entry describes the byte 0. -/
theorem described_zero (cacheList : List CacheDescription) : described cacheList 0 = none := by
  refine List.find?_eq_none.mpr fun cdesc hmem hzero => ?_
  have hne := List.mem_takeWhile_imp hmem
  exact of_decide_eq_true hne (of_decide_eq_true hzero)

theorem cpuCheckCacheList_eq (cacheList : List CacheDescription) (b : BitVec 8) :
    cpuCheckCacheList cacheList b = described cacheList b := by
  unfold cpuCheckCacheList
  split_ifs with hb
  · exact searchCaches_eq b cacheList
  · rw [not_not.mp hb, described_zero]

theorem byte_eq (reg : Word) (i : ℕ) :
    (reg >>> i &&& 0xff).setWidth 8 = reg.extractLsb' i 8 := by
  have hmask : (0xff : Word) = (BitVec.allOnes 8).setWidth 32 := by decide
  ext j hj
  have hj' : j < 32 := by omega
  rw [hmask, BitVec.getElem_extractLsb', BitVec.getElem_setWidth, BitVec.getLsbD_and,
    BitVec.getLsbD_ushiftRight, BitVec.getLsbD_setWidth, BitVec.getLsbD_allOnes]
  simp [hj, hj']

theorem findSome?_cons_or {α β : Type} {f : α → Option β} {a : α} {as : List α} :
    (a :: as).findSome? f = (f a).or (as.findSome? f) := by
  rw [List.findSome?_cons]
  cases f a <;> rfl

theorem byRegister_eq (cacheList : List CacheDescription) (reg : Word) :
    cpuCheckCacheListByRegister cacheList reg =
      (bytesOf reg).findSome? (described cacheList) := by
  have hlast := byte_eq reg 0
  rw [BitVec.ushiftRight_zero] at hlast
  unfold cpuCheckCacheListByRegister
  rw [byte_eq, byte_eq, byte_eq, hlast]
  simp only [cpuCheckCacheList_eq, bytesOf, findSome?_cons_or, List.findSome?_nil, Option.or_none,
    Option.orElse_eq_orElse, Option.orElse_eq_or]

theorem and_bit {i : ℕ} (hi : i < 32) (reg : Word) :
    reg &&& BitVec.twoPow 32 i ≠ 0 ↔ reg.getLsbD i = true := by
  have hne : BitVec.twoPow 32 i ≠ 0 := fun hzero => by
    have hbit := congrArg (fun x => x.getLsbD i) hzero
    simp [hi] at hbit
  rw [BitVec.and_twoPow]
  by_cases hbit : reg.getLsbD i
  · simp only [hbit, if_true]
    exact iff_of_true hne trivial
  · simp [hbit]

theorem telling_eq (cacheList : List CacheDescription) (reg : Word) :
    cpuCheckCacheListByRegister cacheList (telling reg) =
      (toldBy reg).findSome? (described cacheList) := by
  have hmsb : reg &&& 0x80000000 ≠ 0 ↔ reg.msb = true := by
    rw [show (0x80000000 : Word) = BitVec.twoPow 32 31 by decide, and_bit (by decide),
      BitVec.msb_eq_getLsbD_last]
  unfold telling toldBy
  simp only [hmsb]
  split_ifs
  · rw [byRegister_eq]
    have hzero : described cacheList 0#8 = none := described_zero cacheList
    simp [bytesOf, hzero]
  · exact byRegister_eq cacheList reg

/-- An answer tells of a cache as its registers do, one after the other. -/
theorem cacheOf_eq (cacheList : List CacheDescription) (r : Registers) :
    (cpuCheckCacheListByRegister cacheList (telling r.eax) <|>
      cpuCheckCacheListByRegister cacheList (telling r.ebx) <|>
      cpuCheckCacheListByRegister cacheList (telling r.ecx) <|>
      cpuCheckCacheListByRegister cacheList (telling r.edx)) = cacheOf r cacheList := by
  simp only [telling_eq, cacheOf, descriptorsOf, List.flatMap_cons, List.flatMap_nil,
    List.append_nil, List.findSome?_append, Option.orElse_eq_orElse, Option.orElse_eq_or]

/-! ### The loop over the answers -/

section Loop

variable {p : Processor} {n : ℕ} {h : List CString} {s : Probe}

theorem wp_cpuid {val : Word} {Q : Post Empty Probe CString Registers} :
    wp p n id (cpuid val) Q h s ↔
      Q.done (p.answer s.calls val) h { s with calls := s.calls + 1 } := wp_step _

/-- The answers to the next executions of `cpuid`. -/
def nextAnswers (p : Processor) (val : Word) (calls count : ℕ) : List Registers :=
  (List.range count).map fun i => p.answer (calls + i) val

/-- **The loop** stops at the first answer that tells of a cache. -/
theorem wp_cacheLoop (ctab : List CacheDescription) (count : ℕ) : ∀ {h s},
    wp p n id (cacheLoop ctab count) ⟨fun o h' t => h' = h ∧ t.cpu = s.cpu ∧
      o = (nextAnswers p 0x00000002 s.calls count).findSome? fun r => cacheOf r ctab,
      fun _ _ _ => False, fun _ => False⟩ h s := by
  induction count with
  | zero =>
    intro h s
    rw [cacheLoop, wp_pure]
    exact ⟨rfl, rfl, rfl⟩
  | succ count ih =>
    intro h s
    have hnext : nextAnswers p 0x00000002 s.calls (count + 1) =
        p.answer s.calls 0x00000002 :: nextAnswers p 0x00000002 (s.calls + 1) count := by
      simp [nextAnswers, List.range_succ_eq_map, Function.comp_def, Nat.add_assoc, Nat.add_comm 1]
    rw [hnext, findSome?_cons_or]
    simp only [cacheLoop, wp_bind, wp_cpuid, cacheOf_eq]
    rcases cacheOf (p.answer s.calls 0x00000002) ctab with _ | cdesc
    · exact ih
    · rw [wp_pure]
      exact ⟨rfl, rfl, rfl⟩

end Loop

/-! ### A processor whose answers stay the same -/

section Steady

variable {p : Processor} {f : Word → Registers} {n : ℕ} {h : List CString} {s : Probe}

/-- Every execution of `cpuid` answers the same. -/
def Steady (p : Processor) (f : Word → Registers) : Prop := ∀ k val, p.answer k val = f val

/-- The cache of a table that the processor has; the lowest byte of EAX says how many answers there
are. -/
def cacheIn (f : Word → Registers) (ctab : List CacheDescription) : Option CacheDescription :=
  if (f 0x00000002).eax &&& 0xff = 0 then none else cacheOf (f 0x00000002) ctab

/-- What is learned of a cache. -/
def learned (setSize : Word → CpuInfo → CpuInfo) (o : Option CacheDescription) (cpu : CpuInfo) :
    CpuInfo :=
  o.elim cpu fun cdesc => { setSize cdesc.size cpu with cacheline := cdesc.line }

theorem wp_cpuCacheSize (hsteady : Steady p f) (ctab : List CacheDescription)
    (setSize : Word → CpuInfo → CpuInfo) {Q : Post Empty Probe CString Unit}
    (hQ : ∀ calls, Q.done () h ⟨learned setSize (cacheIn f ctab) s.cpu, calls⟩) :
    wp p n id (cpuCacheSize ctab setSize) Q h s := by
  simp only [cpuCacheSize, wp_bind, wp_cpuid]
  refine wp_mono (wp_cacheLoop ctab _) ?_ (fun _ _ _ hf => hf.elim) fun _ hf => hf.elim
  rintro o h' ⟨cpu, calls⟩ ⟨rfl, hcpu, ho⟩
  have hsame : nextAnswers p 0x00000002 (s.calls + 1)
      ((p.answer s.calls 0x00000002).eax &&& 0xff).toNat =
      List.replicate ((f 0x00000002).eax &&& 0xff).toNat (f 0x00000002) := by
    simp only [nextAnswers, hsteady _ _, List.map_const', List.length_range]
  have ho : o = cacheIn f ctab := by
    rw [ho, hsame, List.findSome?_replicate]
    unfold cacheIn
    by_cases hzero : (f 0x00000002).eax &&& 0xff = 0
    · rw [if_pos (by rw [hzero]; rfl), if_pos hzero]
    · have hpos : ((f 0x00000002).eax &&& 0xff).toNat ≠ 0 := fun h =>
        hzero (BitVec.eq_of_toNat_eq h)
      rw [if_neg hpos, if_neg hzero]
  obtain rfl : cpu = s.cpu := hcpu
  subst ho
  have hQ := hQ calls
  rcases hcache : cacheIn f ctab with _ | cdesc <;> rw [hcache] at hQ
  · exact (wp_pure _).mpr hQ
  · exact (wp_modify _).mpr hQ

/-- The flags that an Intel processor has of its own. -/
def intelFlags (f : Word → Registers) : Word :=
  flagged (f 1).ecx 0x00100000 extSse42 <| flagged (f 1).ecx 0x00080000 extSse41 <|
  flagged (f 1).ecx 0x00000001 extSse3 <| flagged (f 1).edx 0x04000000 extSse2 <|
  flagged (f 1).edx 0x02000000 extSse <| flagged (f 1).edx 0x02000000 extMmx2 <|
  flagged (f 1).edx 0x00800000 extMmx 0

/-- The size that a table says, or nothing. -/
def sizeIn (f : Word → Registers) (ctab : List CacheDescription) : Word :=
  (cacheIn f ctab).elim 0 CacheDescription.size

/-- What is known of an Intel processor. -/
def intelCpu (f : Word → Registers) : CpuInfo where
  vendor := .intel
  cacheL1Instruction := sizeIn f intelL1iCaches
  cacheL1Data := sizeIn f intelL1dCaches
  cacheL2 := sizeIn f intelL2Caches
  cacheL3 := sizeIn f intelL3Caches
  -- the last table with a cache says the size of a line
  cacheline := (cacheIn f intelL3Caches <|> cacheIn f intelL2Caches <|> cacheIn f intelL1dCaches <|>
    cacheIn f intelL1iCaches).elim 0 CacheDescription.line
  flags := intelFlags f
  maxExtendedParam := (f 0x80000000).eax

theorem wp_cpuVendorIntel (hsteady : Steady p f)
    (hcpu : s.cpu = ⟨.intel, 0, 0, 0, 0, 0, 0, (f 0x80000000).eax⟩)
    {Q : Post Empty Probe CString Unit} (hQ : ∀ calls, Q.done () h ⟨intelCpu f, calls⟩) :
    wp p n id cpuVendorIntel Q h s := by
  obtain ⟨cpu, calls⟩ := s
  obtain rfl : cpu = _ := hcpu
  simp only [cpuVendorIntel, setCpu, wp_bind, wp_cpuid, wp_modify, hsteady _ _]
  refine wp_cpuCacheSize hsteady _ _ fun _ => wp_cpuCacheSize hsteady _ _ fun _ =>
    wp_cpuCacheSize hsteady _ _ fun _ => wp_cpuCacheSize hsteady _ _ fun calls => ?_
  have hQ := hQ calls
  unfold intelCpu sizeIn at hQ
  generalize cacheIn f intelL1iCaches = l₁ at hQ ⊢
  generalize cacheIn f intelL1dCaches = l₂ at hQ ⊢
  generalize cacheIn f intelL2Caches = l₃ at hQ ⊢
  generalize cacheIn f intelL3Caches = l₄ at hQ ⊢
  rcases l₁ with _ | _ <;> rcases l₂ with _ | _ <;> rcases l₃ with _ | _ <;>
    rcases l₄ with _ | _ <;> exact hQ

/-! ### What an AMD processor tells -/

/-- What is known of an AMD processor. -/
def amdCpu (f : Word → Registers) : CpuInfo :=
  let told := (f 0x80000000).eax
  { vendor := .amd
    cacheL1Instruction := if 0x80000005 ≤ told then (f 0x80000005).edx >>> 24 else 0
    cacheL1Data := if 0x80000005 ≤ told then (f 0x80000005).ecx >>> 24 else 0
    cacheL2 := if 0x80000006 ≤ told then (f 0x80000006).ecx >>> 24 else 0
    cacheL3 := 0
    cacheline := if 0x80000005 ≤ told then (f 0x80000005).ecx &&& 0xff else 0
    flags := 0
    maxExtendedParam := told }

theorem wp_cpuVendorAmd (hsteady : Steady p f)
    (hcpu : s.cpu = ⟨.amd, 0, 0, 0, 0, 0, 0, (f 0x80000000).eax⟩)
    {Q : Post Empty Probe CString Unit} (hQ : ∀ calls, Q.done () h ⟨amdCpu f, calls⟩) :
    wp p n id cpuVendorAmd Q h s := by
  obtain ⟨cpu, calls⟩ := s
  obtain rfl : cpu = _ := hcpu
  unfold amdCpu at hQ
  simp only [cpuVendorAmd, setCpu, wp_bind, wp_cpuid, wp_get]
  by_cases hl1 : 0x80000005 ≤ (f 0x80000000).eax <;>
    by_cases hl2 : 0x80000006 ≤ (f 0x80000000).eax <;>
    simp only [hl1, hl2, if_true, if_false, wp_bind, wp_cpuid, wp_get, wp_modify, wp_pure,
      hsteady _ _] at hQ ⊢ <;>
    exact hQ _

/-! ### Who made the processor -/

/-- The name of the maker starts with `Genu`. -/
abbrev Intel (f : Word → Registers) : Prop := (f 0).ebx = 0x756e6547

/-- The name of the maker starts with `Auth`. -/
abbrev Amd (f : Word → Registers) : Prop := (f 0).ebx = 0x68747541

/-- The vendor that `cpu_detect_vendor` finds. -/
def vendorOf (ebx : Word) : Vendor :=
  vendors.foldl (fun vendor v => if ebx = v.1 then v.2 else vendor) .unknown

theorem vendorOf_intel (ebx : Word) : vendorOf ebx = .intel ↔ ebx = 0x756e6547 := by
  simp only [vendorOf, vendors, List.foldl_cons, List.foldl_nil]
  split_ifs <;> simp_all

theorem vendorOf_amd (ebx : Word) : vendorOf ebx = .amd ↔ ebx = 0x68747541 := by
  simp only [vendorOf, vendors, List.foldl_cons, List.foldl_nil]
  split_ifs <;> simp_all

/-- What is known before the common features. -/
def makerCpu (f : Word → Registers) : CpuInfo :=
  if Intel f then intelCpu f
  else if Amd f then amdCpu f
  else ⟨vendorOf (f 0).ebx, 0, 0, 0, 0, 0, 0, (f 0x80000000).eax⟩

/-! ### Features that all makers may have -/

/-- The flags with the common ones. -/
def commonFlags (f : Word → Registers) (flags : Word) : Word :=
  if 0x80000001 ≤ (f 0x80000000).eax then
    flagged (f 0x80000001).edx 0x40000000 ext3dnowext <|
    flagged (f 0x80000001).edx 0x80000000 ext3dnow <|
    flagged (f 0x80000001).edx 0x00400000 extMmx2 <|
    flagged (f 0x80000001).edx 0x00800000 extMmx flags
  else flags

theorem wp_commonFeatures (hsteady : Steady p f) {Q : Post Empty Probe CString Unit}
    (hQ : ∀ calls, Q.done () h ⟨{ s.cpu with flags := commonFlags f s.cpu.flags }, calls⟩) :
    wp p n id commonFeatures Q h s := by
  unfold commonFlags at hQ
  simp only [commonFeatures, setCpu, wp_bind, wp_cpuid, hsteady _ _]
  by_cases hext : 0x80000001 ≤ (f 0x80000000).eax
  · simp only [hext, if_true, wp_bind, wp_cpuid, wp_modify, hsteady _ _] at hQ ⊢
    exact hQ _
  · simp only [hext, if_false, wp_pure] at hQ ⊢
    exact hQ _

/-- What is known of a processor. -/
def knownCpu (f : Word → Registers) : CpuInfo :=
  { makerCpu f with flags := commonFlags f (makerCpu f).flags }

end Steady

/-! ### Features and sizes -/

section Meaning

variable (f : Word → Registers)

/-- The features that can be asked for. -/
inductive Feature where
  | mmx
  | mmx2
  | threeDNow
  | threeDNowExt
  | sse
  | sse2
  | sse3
  | sse41
  | sse42
deriving DecidableEq

def Feature.name : Feature → CString
  | .mmx => "mmx".toList
  | .mmx2 => "mmx2".toList
  | .threeDNow => "3dnow".toList
  | .threeDNowExt => "3dnowext".toList
  | .sse => "sse".toList
  | .sse2 => "sse2".toList
  | .sse3 => "sse3".toList
  | .sse41 => "sse4.1".toList
  | .sse42 => "sse4.2".toList

/-- The processor answers what only newer ones do. -/
abbrev Extended : Prop := 0x80000001 ≤ (f 0x80000000).eax

/-- **The processor has the feature**, by the bits of its answers. -/
def Has : Feature → Prop
  | .mmx => Intel f ∧ (f 1).edx.getLsbD 23 ∨ Extended f ∧ (f 0x80000001).edx.getLsbD 23
  | .mmx2 => Intel f ∧ (f 1).edx.getLsbD 25 ∨ Extended f ∧ (f 0x80000001).edx.getLsbD 22
  | .threeDNow => Extended f ∧ (f 0x80000001).edx.getLsbD 31
  | .threeDNowExt => Extended f ∧ (f 0x80000001).edx.getLsbD 30
  | .sse => Intel f ∧ (f 1).edx.getLsbD 25
  | .sse2 => Intel f ∧ (f 1).edx.getLsbD 26
  | .sse3 => Intel f ∧ (f 1).ecx.getLsbD 0
  | .sse41 => Intel f ∧ (f 1).ecx.getLsbD 19
  | .sse42 => Intel f ∧ (f 1).ecx.getLsbD 20

/-- The place of a feature in the flags. -/
def Feature.place : Feature → ℕ
  | .mmx => 0
  | .mmx2 => 1
  | .threeDNow => 2
  | .threeDNowExt => 3
  | .sse => 4
  | .sse2 => 5
  | .sse3 => 6
  | .sse41 => 7
  | .sse42 => 8

theorem flagged_getLsbD {reg mask ext flags : Word} {i k : ℕ} (hi : i < 32)
    (hmask : mask = BitVec.twoPow 32 i) (hext : ext = BitVec.twoPow 32 k) (j : ℕ) (hj : j < 32) :
    (flagged reg mask ext flags).getLsbD j =
      (flags.getLsbD j || (decide (k = j) && reg.getLsbD i)) := by
  have hbit := and_bit hi reg
  subst hmask hext
  unfold flagged
  simp only [hbit]
  split_ifs with hset <;> simp [hset, hj, eq_comm]

/-- The flags of an Intel processor, bit by bit. -/
theorem intelFlags_getLsbD {j : ℕ} (hj : j < 32) : (intelFlags f).getLsbD j =
    ((decide (0 = j) && (f 1).edx.getLsbD 23) || (decide (1 = j) && (f 1).edx.getLsbD 25) ||
      (decide (4 = j) && (f 1).edx.getLsbD 25) || (decide (5 = j) && (f 1).edx.getLsbD 26) ||
      (decide (6 = j) && (f 1).ecx.getLsbD 0) || (decide (7 = j) && (f 1).ecx.getLsbD 19) ||
      (decide (8 = j) && (f 1).ecx.getLsbD 20)) := by
  have hnone : (0 : Word).getLsbD j = false := by simp
  unfold intelFlags
  rw [flagged_getLsbD (i := 20) (k := 8) (by decide) (by decide) (by decide) j hj,
    flagged_getLsbD (i := 19) (k := 7) (by decide) (by decide) (by decide) j hj,
    flagged_getLsbD (i := 0) (k := 6) (by decide) (by decide) (by decide) j hj,
    flagged_getLsbD (i := 26) (k := 5) (by decide) (by decide) (by decide) j hj,
    flagged_getLsbD (i := 25) (k := 4) (by decide) (by decide) (by decide) j hj,
    flagged_getLsbD (i := 25) (k := 1) (by decide) (by decide) (by decide) j hj,
    flagged_getLsbD (i := 23) (k := 0) (by decide) (by decide) (by decide) j hj,
    hnone, Bool.false_or]

theorem commonFlags_getLsbD (flags : Word) {j : ℕ} (hj : j < 32) :
    (commonFlags f flags).getLsbD j = (flags.getLsbD j || (decide (Extended f) &&
      ((decide (0 = j) && (f 0x80000001).edx.getLsbD 23) ||
        (decide (1 = j) && (f 0x80000001).edx.getLsbD 22) ||
        (decide (2 = j) && (f 0x80000001).edx.getLsbD 31) ||
        (decide (3 = j) && (f 0x80000001).edx.getLsbD 30)))) := by
  unfold commonFlags
  by_cases hext : Extended f
  · rw [if_pos hext, flagged_getLsbD (i := 30) (k := 3) (by decide) (by decide) (by decide) j hj,
      flagged_getLsbD (i := 31) (k := 2) (by decide) (by decide) (by decide) j hj,
      flagged_getLsbD (i := 22) (k := 1) (by decide) (by decide) (by decide) j hj,
      flagged_getLsbD (i := 23) (k := 0) (by decide) (by decide) (by decide) j hj]
    simp only [hext, decide_true, Bool.true_and, Bool.or_assoc]
  · rw [if_neg hext]
    simp only [hext, decide_false, Bool.false_and, Bool.or_false]

theorem makerCpu_flags {j : ℕ} :
    (makerCpu f).flags.getLsbD j = (decide (Intel f) && (intelFlags f).getLsbD j) := by
  unfold makerCpu
  by_cases hintel : Intel f
  · rw [if_pos hintel, decide_eq_true hintel, Bool.true_and]
    rfl
  · rw [if_neg hintel]
    by_cases hamd : Amd f
    · simp [if_pos hamd, hintel, amdCpu]
    · simp [if_neg hamd, hintel]

/-- **A flag is set** iff the processor has the feature. -/
theorem flag_iff (x : Feature) :
    (knownCpu f).flags &&& BitVec.twoPow 32 x.place ≠ 0 ↔ Has f x := by
  have hplace : x.place < 32 := by cases x <;> decide
  rw [and_bit hplace, knownCpu, commonFlags_getLsbD f _ hplace, makerCpu_flags,
    intelFlags_getLsbD f hplace]
  cases x <;> simp [Feature.place, Has]

/-- The caches whose sizes can be asked for. -/
inductive Cache where
  | l1i
  | l1d
  | l2
  | l3
deriving DecidableEq

def Cache.name : Cache → CString
  | .l1i => "l1icachesize".toList
  | .l1d => "l1dcachesize".toList
  | .l2 => "l2cachesize".toList
  | .l3 => "l3cachesize".toList

/-- The sizes that are known of Intel's. -/
def Cache.table : Cache → List CacheDescription
  | .l1i => intelL1iCaches
  | .l1d => intelL1dCaches
  | .l2 => intelL2Caches
  | .l3 => intelL3Caches

/-- The highest value of EAX that the processor answers, and the size in the answer. -/
def Cache.toldByAmd : Cache → Word
  | .l1i => if 0x80000005 ≤ (f 0x80000000).eax then (f 0x80000005).edx >>> 24 else 0
  | .l1d => if 0x80000005 ≤ (f 0x80000000).eax then (f 0x80000005).ecx >>> 24 else 0
  | .l2 => if 0x80000006 ≤ (f 0x80000000).eax then (f 0x80000006).ecx >>> 24 else 0
  | .l3 => 0

/-- The size of a cache, in KiB. -/
def Cache.size (c : Cache) : Word :=
  if Intel f then sizeIn f c.table else if Amd f then c.toldByAmd f else 0

/-- The size of a cache line: of Intel's, that of the last cache in this order. -/
def lineSize : Word :=
  if Intel f then (([.l3, .l2, .l1d, .l1i] : List Cache).findSome? fun c => cacheIn f c.table).elim 0
    CacheDescription.line
  else if Amd f then
    if 0x80000005 ≤ (f 0x80000000).eax then (f 0x80000005).ecx &&& 0xff else 0
  else 0

/-- Where the size of a cache is kept. -/
def Cache.kept (cpu : CpuInfo) : Cache → Word
  | .l1i => cpu.cacheL1Instruction
  | .l1d => cpu.cacheL1Data
  | .l2 => cpu.cacheL2
  | .l3 => cpu.cacheL3

theorem kept_eq (c : Cache) : c.kept (knownCpu f) = c.size f := by
  unfold knownCpu makerCpu Cache.size
  by_cases hintel : Intel f
  · rw [if_pos hintel, if_pos hintel]
    cases c <;> rfl
  · rw [if_neg hintel, if_neg hintel]
    by_cases hamd : Amd f
    · rw [if_pos hamd, if_pos hamd]
      cases c <;> rfl
    · rw [if_neg hamd, if_neg hamd]
      cases c <;> rfl

theorem cacheline_eq : (knownCpu f).cacheline = lineSize f := by
  unfold knownCpu makerCpu lineSize
  by_cases hintel : Intel f
  · simp only [if_pos hintel, intelCpu, findSome?_cons_or, List.findSome?_nil, Option.or_none,
      Option.orElse_eq_orElse, Option.orElse_eq_or, Cache.table]
  · rw [if_neg hintel, if_neg hintel]
    by_cases hamd : Amd f
    · rw [if_pos hamd, if_pos hamd]
      rfl
    · rw [if_neg hamd, if_neg hamd]

end Meaning

/-! ### The program -/

/-- What is printed for a word, and the exit status: a size is printed with the status 1. -/
inductive Answer (f : Word → Registers) (longBits : ℕ) : CString → CString → ℕ → Prop where
  | has {x : Feature} (hx : Has f x) : Answer f longBits x.name "1\n".toList 0
  | lacks {x : Feature} (hx : ¬ Has f x) : Answer f longBits x.name "0\n".toList 0
  | size (c : Cache) :
    Answer f longBits c.name (line ((c.size f).toNat * 1024 % 2 ^ longBits)) 1
  | cacheline : Answer f longBits "cacheline".toList (line ((lineSize f).toNat % 2 ^ longBits)) 1
  | unknown {name : CString} (hfeature : ∀ x : Feature, name ≠ x.name)
    (hsize : ∀ c : Cache, name ≠ c.name) (hline : name ≠ "cacheline".toList) :
    Answer f longBits name "0\n".toList 0

theorem features_eq (name : CString) :
    (∃ x : Feature, name = x.name ∧ ∀ cpu, cpuCheckFeatures cpu name = some
      (if cpu.flags &&& BitVec.twoPow 32 x.place ≠ 0 then "1\n".toList else "0\n".toList)) ∨
    ((∀ x : Feature, name ≠ x.name) ∧ ∀ cpu, cpuCheckFeatures cpu name = none) := by
  by_cases hname : ∃ x : Feature, name = x.name
  · obtain ⟨x, rfl⟩ := hname
    refine .inl ⟨x, rfl, fun cpu => ?_⟩
    cases x <;> rfl
  · push Not at hname
    refine .inr ⟨hname, fun cpu => ?_⟩
    have hnone : features.find? (fun feature => feature.1 = name) = none := by
      refine List.find?_eq_none.mpr fun feature hmem => ?_
      have hx : ∃ x : Feature, feature.1 = x.name := by
        simp only [features, List.mem_cons, List.not_mem_nil, or_false] at hmem
        rcases hmem with rfl | rfl | rfl | rfl | rfl | rfl | rfl | rfl | rfl
        exacts [⟨.mmx, rfl⟩, ⟨.mmx2, rfl⟩, ⟨.threeDNow, rfl⟩, ⟨.threeDNowExt, rfl⟩, ⟨.sse, rfl⟩,
          ⟨.sse2, rfl⟩, ⟨.sse3, rfl⟩, ⟨.sse41, rfl⟩, ⟨.sse42, rfl⟩]
      obtain ⟨x, hx⟩ := hx
      rw [hx]
      simpa using (hname x).symm
    rw [cpuCheckFeatures, hnone]
    rfl

section Runs

variable {p : Processor} {f : Word → Registers} {n : ℕ} {h : List CString} {s : Probe}

theorem wp_printSize {size shift : ℕ} {Q : Post Empty Probe CString ℕ} :
    wp p n id (printSize size shift) Q h s ↔
      Q.done 1 (h ++ [line (size <<< shift % 2 ^ p.longBits)]) s := by
  simp only [printSize, wp_bind, wp_ask, wp_note, wp_pure, id]

/-- One line is printed, the answer to a word. -/
def Answered (p : Processor) (f : Word → Registers) (name : CString) :
    Post Empty Probe CString ℕ :=
  ⟨fun code h' _ => ∃ text, h' = [text] ∧ Answer f p.longBits name text code,
    fun _ _ _ => False, fun _ => False⟩

theorem wp_answerName (hcpu : s.cpu = knownCpu f) (name : CString) :
    wp p n id (answerName name) (Answered p f name) [] s := by
  simp only [answerName, wp_bind, wp_get, hcpu]
  rcases features_eq name with ⟨x, rfl, hx⟩ | ⟨hfeature, hnone⟩
  · rw [hx]
    simp only [wp_bind, wp_note, wp_pure]
    refine ⟨_, rfl, ?_⟩
    by_cases hflag : (knownCpu f).flags &&& BitVec.twoPow 32 x.place ≠ 0
    · rw [if_pos hflag]
      exact .has ((flag_iff f x).mp hflag)
    · rw [if_neg hflag]
      exact .lacks (mt (flag_iff f x).mpr hflag)
  · rw [hnone]
    have hsize (c : Cache) : wp p n id (printSize (c.kept (knownCpu f)).toNat 10)
        (Answered p f c.name) [] s := by
      rw [wp_printSize, kept_eq]
      refine ⟨_, rfl, ?_⟩
      rw [Nat.shiftLeft_eq]
      exact .size c
    dsimp only
    split_ifs with h1 h2 h3 h4 hline
    · exact h1 ▸ hsize .l1i
    · exact h2 ▸ hsize .l1d
    · exact h3 ▸ hsize .l2
    · exact h4 ▸ hsize .l3
    · rw [wp_printSize, cacheline_eq, hline]
      exact ⟨_, rfl, .cacheline⟩
    · simp only [wp_bind, wp_note, wp_pure]
      refine ⟨_, rfl, .unknown hfeature (fun c => ?_) hline⟩
      cases c
      exacts [h1, h2, h3, h4]

/-- What comes after the maker is known. -/
theorem wp_rest (hsteady : Steady p f) (hcpu : s.cpu = makerCpu f) (name : CString) :
    wp p n id (do commonFeatures; answerName name) (Answered p f name) [] s := by
  rw [wp_bind]
  refine wp_commonFeatures hsteady fun _ => wp_answerName ?_ name
  rw [hcpu]
  rfl

theorem wp_main (hsupported : p.supported = true) (hsteady : Steady p f) (prog name : CString)
    (args : List CString) :
    wp p n id (main (prog :: name :: args)) (Answered p f name) [] .initial := by
  have hvendor : vendors.foldl (fun vendor v => if (f 0).ebx = v.1 then v.2 else vendor)
    Probe.initial.cpu.vendor = vendorOf (f 0).ebx := rfl
  simp only [main, wp_bind, wp_ask, hsupported, Bool.not_true, Bool.false_eq_true, if_false,
    setCpu, cpuDetectVendor, wp_cpuid, wp_modify, wp_get, hsteady _ _, hvendor]
  cases hmaker : vendorOf (f 0).ebx with
  | intel =>
    have hintel : Intel f := (vendorOf_intel _).mp hmaker
    rw [wp_bind]
    exact wp_cpuVendorIntel hsteady rfl fun _ => wp_rest hsteady (if_pos hintel).symm name
  | amd =>
    have hamd : Amd f := (vendorOf_amd _).mp hmaker
    have hintel : ¬ Intel f := fun hintel => by
      rw [(vendorOf_intel _).mpr hintel] at hmaker
      cases hmaker
    rw [wp_bind]
    refine wp_cpuVendorAmd hsteady rfl fun _ => wp_rest hsteady ?_ name
    rw [makerCpu, if_neg hintel, if_pos hamd]
  | _ =>
    -- the program asks nothing of the other makers' processors
    have hintel : ¬ Intel f := fun hintel => by
      rw [(vendorOf_intel _).mpr hintel] at hmaker
      cases hmaker
    have hamd : ¬ Amd f := fun hamd => by
      rw [(vendorOf_amd _).mpr hamd] at hmaker
      cases hmaker
    refine wp_rest hsteady ?_ name
    rw [makerCpu, if_neg hintel, if_neg hamd, hmaker]
    rfl

/-- **The probe's answer.** Whatever the word, one line is printed that tells what the processor
answers about it. -/
theorem answers (hsupported : p.supported = true) (hsteady : Steady p f) (prog name : CString)
    (args : List CString) : ∃ text code t,
      main (prog :: name :: args) p n .initial = ⟨[text], .done code t⟩ ∧
      Answer f p.longBits name text code := by
  obtain ⟨code, t, hend, text, hlog, hanswer⟩ := wp_returns
    (wp_main (n := n) hsupported hsteady prog name args) (fun _ _ _ hf => hf) fun _ hf => hf
  rw [List.map_id, List.nil_append] at hlog
  refine ⟨text, code, t, ?_, hanswer⟩
  rw [← hlog, ← hend]

/-- A processor of Intel's with a second level cache of 256 KiB. -/
def pentium (val : Word) : Registers :=
  if val = 0 then ⟨2, 0x756e6547, 0x6c65746e, 0x49656e69⟩
  else if val = 1 then ⟨0xf24, 0, 0, 0x3febfbff⟩
  else if val = 2 then ⟨0x665b5001, 0, 0, 0x007a7040⟩
  else if val = 0x80000000 then ⟨0x80000004, 0, 0, 0⟩
  else ⟨0, 0, 0, 0⟩

theorem answers_pentium :
    (main ["sd-cpuidx86".toList, "l2cachesize".toList] ⟨true, fun _ => pentium, 64⟩ 0 .initial).log =
      ["262144\n".toList] ∧
    ∃ text code t, main ["sd-cpuidx86".toList, "l2cachesize".toList] ⟨true, fun _ => pentium, 64⟩ 0
        .initial = ⟨[text], .done code t⟩ ∧
      Answer pentium 64 "l2cachesize".toList text code :=
  ⟨by decide +kernel, answers rfl (fun _ _ => rfl) _ _ _⟩

end Runs

end LuaAdaLoad.Sysdeps.ProcessorAnswers
