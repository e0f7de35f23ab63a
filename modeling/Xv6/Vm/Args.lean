import Xv6.Vm.Conserve

namespace Xv6.Vm

open Lib

abbrev Memory := Word → Byte

def Memory.word (mem : Memory) (a : Word) : Word :=
  mem (a + 3) ++ mem (a + 2) ++ mem (a + 1) ++ mem a

variable (t : Task) (mem : Memory)

def fetchint (addr : Word) : Int × Option Word :=
  if t.sz ≤ addr ∨ t.sz < addr + 4 then (-1, none) else (0, some (mem.word addr))

/-- The loop of `fetchstr`, whose body is run at most `n` times. -/
def strLoop (pp ep : Word) : Nat → Word → Int
  | 0, _ => -1
  | n + 1, s =>
    if s < ep then
      if mem s = 0 then (s - pp).toInt else strLoop pp ep n (s + 1)
    else -1

def fetchstr (addr : Word) : Int × Option Word :=
  if t.sz ≤ addr then (-1, none) else (strLoop mem addr t.sz t.sz.toNat addr, some addr)

variable (esp : Word)

def argint (n : Word) : Int × Option Word := fetchint t mem (esp + 4 + 4 * n)

/-- `size` is an `int`. -/
def argptr (n size : Word) : Int × Option Word :=
  let (r, i) := argint t mem esp n
  if r < 0 then (-1, none)
  else
    let i := i.getD 0
    if size.toInt < 0 ∨ t.sz ≤ i ∨ t.sz < i + size then (-1, none) else (0, some i)

def argstr (n : Word) : Int × Option Word :=
  let (r, addr) := argint t mem esp n
  if r < 0 then (-1, none) else fetchstr t mem (addr.getD 0)

structure IsString (addr : Word) (k : Nat) : Prop where
  inside : addr.toNat + k < t.sz.toNat
  nul : mem (addr + BitVec.ofNat 32 k) = 0
  first : ∀ j < k, mem (addr + BitVec.ofNat 32 j) ≠ 0

def Terminated (addr : Word) : Prop := ∃ a, addr ≤ a ∧ a < t.sz ∧ mem a = 0

structure Validated (t : Task) : Prop where
  bound : t.sz.toNat < 2 ^ 31
  fetchint : ∀ mem addr, 0 ≤ (fetchint t mem addr).1 ↔ addr.toNat + 4 ≤ t.sz.toNat
  fetched : ∀ mem addr w, Vm.fetchint t mem addr = (0, some w) ↔
    addr.toNat + 4 ≤ t.sz.toNat ∧ w = mem.word addr
  argument : ∀ mem esp n w, argint t mem esp n = (0, some w) ↔
    (esp.toNat + 4 + 4 * n.toNat) % 2 ^ 32 + 4 ≤ t.sz.toNat ∧
      w = mem.word (BitVec.ofNat 32 (esp.toNat + 4 + 4 * n.toNat))
  argptr : ∀ mem esp n size, 0 ≤ (argptr t mem esp n size).1 ↔
    ∃ i, argint t mem esp n = (0, some i) ∧ 0 ≤ size.toInt ∧ i.toNat < t.sz.toNat ∧
      i.toNat + size.toNat ≤ t.sz.toNat
  pointer : ∀ mem esp n size, 0 ≤ (Vm.argptr t mem esp n size).1 →
    Vm.argptr t mem esp n size = argint t mem esp n
  fetchstr : ∀ mem addr, 0 ≤ (fetchstr t mem addr).1 ↔ Terminated t mem addr
  argstr : ∀ mem esp n, 0 ≤ (argstr t mem esp n).1 ↔
    ∃ addr, argint t mem esp n = (0, some addr) ∧ Terminated t mem addr
  length : ∀ mem addr (k : Nat), (Vm.fetchstr t mem addr).1 = k →
    (Vm.fetchstr t mem addr).2 = some addr ∧ IsString t mem addr k
  arglength : ∀ mem esp n (k : Nat), (Vm.argstr t mem esp n).1 = k →
    ∃ addr, argint t mem esp n = (0, some addr) ∧ (Vm.argstr t mem esp n).2 = some addr ∧
      IsString t mem addr k

variable {t mem esp}

theorem fetchint_iff (h : t.sz.toNat < 2 ^ 31) :
    (t.sz ≤ addr ∨ t.sz < addr + 4) ↔ t.sz.toNat < addr.toNat + 4 := by
  rw [BitVec.le_def, BitVec.lt_def, BitVec.toNat_add]
  have hfour : (4 : Word).toNat = 4 := rfl
  omega

theorem fetchint_eq (h : t.sz.toNat < 2 ^ 31) :
    fetchint t mem addr = if addr.toNat + 4 ≤ t.sz.toNat then (0, some (mem.word addr)) else (-1, none) := by
  rw [fetchint, if_congr (fetchint_iff h) rfl rfl]
  by_cases hle : addr.toNat + 4 ≤ t.sz.toNat
  · rw [if_neg (by omega), if_pos hle]
  · rw [if_pos (by omega), if_neg hle]

theorem argptr_iff (h : t.sz.toNat < 2 ^ 31) :
    (size.toInt < 0 ∨ t.sz ≤ i ∨ t.sz < i + size) ↔
      ¬(0 ≤ size.toInt ∧ i.toNat < t.sz.toNat ∧ i.toNat + size.toNat ≤ t.sz.toNat) := by
  have hsize := size.isLt
  have hint : size.toInt = if 2 * size.toNat < 2 ^ 32 then (size.toNat : Int) else size.toNat - (2 ^ 32 : Nat) :=
    BitVec.toInt_eq_toNat_cond size
  rw [BitVec.le_def, BitVec.lt_def, BitVec.toNat_add]
  split at hint <;> omega

theorem toNat_add_ofNat (h : addr.toNat + j < 2 ^ 32) : (addr + BitVec.ofNat 32 j).toNat = addr.toNat + j := by
  rw [BitVec.toNat_add, BitVec.toNat_ofNat]
  omega

theorem not_terminated (h : t.sz.toNat ≤ addr.toNat + j)
    (hfirst : ∀ i < j, mem (addr + BitVec.ofNat 32 i) ≠ 0) : ¬ Terminated t mem addr := by
  rintro ⟨a, hle, hlt, hnul⟩
  rw [BitVec.le_def] at hle
  rw [BitVec.lt_def] at hlt
  refine hfirst (a.toNat - addr.toNat) (by omega) ?_
  have ha : addr + BitVec.ofNat 32 (a.toNat - addr.toNat) = a := by
    apply BitVec.eq_of_toNat_eq
    have hbound := a.isLt
    rw [toNat_add_ofNat (by omega)]
    omega
  rwa [ha]

theorem strLoop_spec (mem : Memory) (h : t.sz.toNat < 2 ^ 31) (hj : addr.toNat + j ≤ t.sz.toNat)
    (hn : t.sz.toNat ≤ addr.toNat + j + n) (hfirst : ∀ i < j, mem (addr + BitVec.ofNat 32 i) ≠ 0) :
    (∃ k : Nat, strLoop mem addr t.sz n (addr + BitVec.ofNat 32 j) = k ∧ IsString t mem addr k) ∨
      strLoop mem addr t.sz n (addr + BitVec.ofNat 32 j) = -1 ∧ ¬ Terminated t mem addr := by
  induction n generalizing j with
  | zero => exact .inr ⟨rfl, not_terminated (by omega) hfirst⟩
  | succ n ih =>
    have hs : (addr + BitVec.ofNat 32 j).toNat = addr.toNat + j := toNat_add_ofNat (by omega)
    unfold strLoop
    by_cases hlt : addr + BitVec.ofNat 32 j < t.sz
    · rw [if_pos hlt]
      rw [BitVec.lt_def] at hlt
      by_cases hnul : mem (addr + BitVec.ofNat 32 j) = 0
      · rw [if_pos hnul]
        refine .inl ⟨j, ?_, by omega, hnul, hfirst⟩
        rw [BitVec.add_comm addr, BitVec.add_sub_cancel, BitVec.toInt_eq_toNat_of_lt, BitVec.toNat_ofNat]
        · norm_cast
          exact Nat.mod_eq_of_lt (by omega)
        · rw [BitVec.toNat_ofNat]
          omega
      · rw [if_neg hnul, BitVec.add_assoc, show BitVec.ofNat 32 j + 1 = BitVec.ofNat 32 (j + 1) by simp [BitVec.ofNat_add]]
        refine ih (by omega) (by omega) fun i hi => ?_
        rcases Nat.lt_succ_iff_lt_or_eq.mp hi with hi | rfl
        · exact hfirst i hi
        · exact hnul
    · rw [if_neg hlt]
      rw [BitVec.not_lt, BitVec.le_def] at hlt
      exact .inr ⟨rfl, not_terminated (by omega) hfirst⟩

theorem IsString.terminated (h : IsString t mem addr k) : Terminated t mem addr := by
  have hinside := h.inside
  have hbound := t.sz.isLt
  have ha : (addr + BitVec.ofNat 32 k).toNat = addr.toNat + k := toNat_add_ofNat (by omega)
  refine ⟨addr + BitVec.ofNat 32 k, ?_, ?_, h.nul⟩
  · rw [BitVec.le_def]
    omega
  · rw [BitVec.lt_def]
    omega

theorem fetchstr_spec (h : t.sz.toNat < 2 ^ 31) (mem : Memory) (addr : Word) :
    (∃ k : Nat, (fetchstr t mem addr).1 = k ∧ IsString t mem addr k) ∨
      (fetchstr t mem addr).1 = -1 ∧ ¬ Terminated t mem addr := by
  unfold fetchstr
  by_cases hle : t.sz ≤ addr
  · rw [if_pos hle]
    refine .inr ⟨rfl, ?_⟩
    rw [BitVec.le_def] at hle
    exact not_terminated (j := 0) hle fun i hi => absurd hi (by omega)
  · rw [if_neg hle]
    rw [BitVec.not_le, BitVec.lt_def] at hle
    have hspec := strLoop_spec mem (n := t.sz.toNat) (j := 0) h hle.le (by omega) fun i hi => absurd hi (by omega)
    simpa using hspec

theorem fetchstr_succeeds (h : t.sz.toNat < 2 ^ 31) : 0 ≤ (fetchstr t mem addr).1 ↔ Terminated t mem addr := by
  rcases fetchstr_spec h mem addr with ⟨k, hk, hstring⟩ | ⟨hfail, hnot⟩
  · rw [hk]
    exact iff_of_true (by omega) hstring.terminated
  · rw [hfail]
    exact iff_of_false (by decide) hnot

theorem fetchstr_length (h : t.sz.toNat < 2 ^ 31) {k : Nat} (hk : (fetchstr t mem addr).1 = k) :
    (fetchstr t mem addr).2 = some addr ∧ IsString t mem addr k := by
  refine ⟨?_, ?_⟩
  · unfold fetchstr at hk ⊢
    split
    case isTrue hle =>
      rw [if_pos hle] at hk
      cases hk
    case isFalse => rfl
  · rcases fetchstr_spec h mem addr with ⟨k', hk', hstring⟩ | ⟨hfail, -⟩
    · obtain rfl : k' = k := Int.ofNat_inj.mp (hk'.symm.trans hk)
      exact hstring
    · rw [hfail] at hk
      cases hk

theorem fetchint_eq_some_iff (h : t.sz.toNat < 2 ^ 31) :
    fetchint t mem addr = (0, some w) ↔ addr.toNat + 4 ≤ t.sz.toNat ∧ w = mem.word addr := by
  rw [fetchint_eq h]
  split
  case isTrue hle => simp [hle, eq_comm]
  case isFalse hle => simp [hle]

theorem toNat_argAddr (esp n : Word) :
    (esp + 4 + 4 * n).toNat = (esp.toNat + 4 + 4 * n.toNat) % 2 ^ 32 := by
  have hfour : (4 : Word).toNat = 4 := rfl
  rw [BitVec.toNat_add, BitVec.toNat_add, BitVec.toNat_mul, hfour]
  omega

theorem argint_eq_some_iff (h : t.sz.toNat < 2 ^ 31) :
    argint t mem esp n = (0, some w) ↔ (esp.toNat + 4 + 4 * n.toNat) % 2 ^ 32 + 4 ≤ t.sz.toNat ∧
      w = mem.word (BitVec.ofNat 32 (esp.toNat + 4 + 4 * n.toNat)) := by
  have haddr : BitVec.ofNat 32 (esp.toNat + 4 + 4 * n.toNat) = esp + 4 + 4 * n :=
    BitVec.eq_of_toNat_eq (by rw [BitVec.toNat_ofNat, toNat_argAddr])
  rw [argint, fetchint_eq_some_iff h, haddr, toNat_argAddr]

theorem argint_cases (h : t.sz.toNat < 2 ^ 31) (mem : Memory) (esp n : Word) :
    argint t mem esp n = (-1, none) ∨ ∃ i, argint t mem esp n = (0, some i) := by
  rw [argint, fetchint_eq h]
  split
  · exact .inr ⟨_, rfl⟩
  · exact .inl rfl

theorem argptr_of_fail (h : argint t mem esp n = (-1, none)) : argptr t mem esp n size = (-1, none) := by
  simp [argptr, h]

theorem argptr_of_argint (hbound : t.sz.toNat < 2 ^ 31) (h : argint t mem esp n = (0, some i)) :
    argptr t mem esp n size =
      if 0 ≤ size.toInt ∧ i.toNat < t.sz.toNat ∧ i.toNat + size.toNat ≤ t.sz.toNat then (0, some i)
      else (-1, none) := by
  simp only [argptr, h, Option.getD_some]
  rw [if_neg (by decide), if_congr (argptr_iff hbound) rfl rfl, ite_not]

theorem argptr_succeeds (hbound : t.sz.toNat < 2 ^ 31) :
    0 ≤ (argptr t mem esp n size).1 ↔ ∃ i, argint t mem esp n = (0, some i) ∧ 0 ≤ size.toInt ∧
      i.toNat < t.sz.toNat ∧ i.toNat + size.toNat ≤ t.sz.toNat := by
  rcases argint_cases hbound mem esp n with hfail | ⟨i, hi⟩
  · simp [argptr_of_fail hfail, hfail]
  · rw [argptr_of_argint hbound hi]
    split
    case isTrue hfit => exact iff_of_true le_rfl ⟨i, hi, hfit⟩
    case isFalse hfit =>
      refine iff_of_false (by decide) ?_
      rintro ⟨j, hj, hfit'⟩
      cases hi.symm.trans hj
      exact hfit hfit'

theorem argptr_pointer (hbound : t.sz.toNat < 2 ^ 31) (h : 0 ≤ (argptr t mem esp n size).1) :
    argptr t mem esp n size = argint t mem esp n := by
  obtain ⟨i, hi, hfit⟩ := (argptr_succeeds hbound).mp h
  rw [argptr_of_argint hbound hi, if_pos hfit, hi]

theorem Task.validated (h : t.sz < 0x80000000) : Validated t := by
  have hbound : t.sz.toNat < 2 ^ 31 := h
  refine ⟨hbound, fun mem addr => ?_, fun mem addr w => fetchint_eq_some_iff hbound,
    fun mem esp n w => argint_eq_some_iff hbound, fun mem esp n size => argptr_succeeds hbound,
    fun mem esp n size => argptr_pointer hbound, fun mem addr => fetchstr_succeeds hbound,
    fun mem esp n => ?_, fun mem addr k => fetchstr_length hbound, fun mem esp n k hk => ?_⟩
  · rw [fetchint_eq hbound]
    split
    case isTrue hle => exact iff_of_true le_rfl hle
    case isFalse hle => exact iff_of_false (by decide) hle
  · unfold argstr
    rcases argint_cases hbound mem esp n with hfail | ⟨addr, haddr⟩
    · simp [hfail]
    · simp [haddr, fetchstr_succeeds hbound]
  · unfold argstr at hk ⊢
    rcases argint_cases hbound mem esp n with hfail | ⟨addr, haddr⟩
    · simp only [hfail] at hk
      cases hk
    · simp only [haddr, Option.getD_some] at hk ⊢
      rw [if_neg (by decide)] at hk ⊢
      exact ⟨addr, rfl, fetchstr_length hbound hk⟩

theorem arguments_validated (L : Layout) (aps : Fin ncpu) (s₀ u : System) (es : List (System × Slot × Call))
    (hboot : boot L aps System.zero = .ok ((), s₀)) (hrun : Run (Step L) s₀ es u) :
    Run.Always (fun s => ∀ p, Validated (s.proc p)) es u := by
  have hsound := (booted_of_boot hboot).always_sound hrun
  exact ⟨fun e he p => Task.validated ((hsound.1 e he).size p), fun p => Task.validated (hsound.2.size p)⟩

theorem arguments_validated_sbrk : ∃ s₀ u, boot smallKernel 1 System.zero = .ok ((), s₀) ∧
    Run (Step smallKernel) s₀ [(s₀, 0, .sbrk 33562624)] u ∧
    Run.Always (fun s => ∀ p, Validated (s.proc p)) [(s₀, (0 : Slot), Call.sbrk 33562624)] u := by
  obtain ⟨s₀, hboot, hbooted⟩ := exists_boot smallKernel 1
  obtain ⟨u, hsbrk, -⟩ := sbrk_large hbooted
  have hrun : Run (Step smallKernel) s₀ [(s₀, 0, .sbrk 33562624)] u := .single hsbrk
  exact ⟨s₀, u, hboot, hrun, arguments_validated smallKernel 1 s₀ u _ hboot hrun⟩

end Xv6.Vm
