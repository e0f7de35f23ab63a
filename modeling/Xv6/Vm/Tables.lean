import Xv6.Vm.Page
import Mathlib.Algebra.BigOperators.Fin
import Xv6.Lib.Pool

namespace Xv6.Vm

open Function Lib

abbrev maxPage : Nat := 1048576

theorem toNat_and_not_low (x : Word) (k : Nat) :
    (x &&& ~~~(BitVec.ofNat 32 (2 ^ k - 1))).toNat = x.toNat / 2 ^ k * 2 ^ k := by
  have hshift : x &&& ~~~(BitVec.ofNat 32 (2 ^ k - 1)) = (x >>> k) <<< k := by
    apply BitVec.eq_of_getLsbD_eq
    intro i hi
    simp only [BitVec.getLsbD_and, BitVec.getLsbD_not, BitVec.getLsbD_ofNat,
      Nat.testBit_two_pow_sub_one, BitVec.getLsbD_shiftLeft, BitVec.getLsbD_ushiftRight, hi,
      decide_true, Bool.true_and]
    by_cases hik : i < k
    · simp [hik]
    · simp [hik, Nat.add_sub_cancel' (not_lt.mp hik)]
  rw [hshift, BitVec.toNat_shiftLeft, BitVec.toNat_ushiftRight, Nat.shiftRight_eq_div_pow,
    Nat.shiftLeft_eq, Nat.mod_eq_of_lt]
  exact lt_of_le_of_lt (Nat.div_mul_le_self _ _) x.isLt

theorem toNat_pgrounddown (x : Word) : (x &&& ~~~4095).toNat = x.toNat / 4096 * 4096 :=
  toNat_and_not_low x 12

theorem toNat_align (x : Word) : (x &&& ~~~3).toNat = x.toNat / 4 * 4 := toNat_and_not_low x 2

theorem toNat_pgroundup (h : sz.toNat + 4095 < 2 ^ 32) :
    (pgroundup sz).toNat = (sz.toNat + 4095) / 4096 * 4096 := by
  have hadd : (sz + 4095).toNat = sz.toNat + 4095 := by
    rw [BitVec.toNat_add]
    exact Nat.mod_eq_of_lt h
  rw [pgroundup, toNat_pgrounddown, hadd]

theorem eq_of_pdx_ptx (ha : a < maxPage) (hb : b < maxPage) (hp : pdx a = pdx b)
    (ht : ptx a = ptx b) : a = b := by
  simp only [pdx, ptx, Fin.ofNat, Fin.mk.injEq, maxPage] at hp ht ha hb
  omega

theorem pdx_lt_iff (ha : a < maxPage) : (pdx a).val < 512 ↔ a < kernbase := by
  simp only [pdx, Fin.ofNat, maxPage, kernbase] at *
  omega

namespace Pgdir

variable {d : Pgdir} {a b : Nat} {e : Option Pte} {p : Page}

def lookup (d : Pgdir) (a : Nat) : Option Pte := (d.entry a).join

def HasTable (d : Pgdir) (a : Nat) : Prop := (d.pde (pdx a)).isSome

instance : Decidable (d.HasTable a) := inferInstanceAs (Decidable (_ = true))

theorem entry_eq_none : d.entry a = none ↔ ¬ d.HasTable a := by
  simp [entry, HasTable]

theorem lookup_eq_none_of_not_hasTable (h : ¬ d.HasTable a) : d.lookup a = none := by
  rw [lookup, entry_eq_none.mpr h]
  rfl

theorem entry_of_lookup (h : d.lookup a = some x) : d.entry a = some (some x) :=
  Option.join_eq_some_iff.mp h

theorem HasTable.of_lookup (h : d.lookup a = some x) : d.HasTable a := by
  by_contra hnone
  rw [lookup_eq_none_of_not_hasTable hnone] at h
  cases h

theorem HasTable.of_entry (h : d.entry a = some x) : d.HasTable a := by
  by_contra hnone
  rw [entry_eq_none.mpr hnone] at h
  cases h

theorem lookup_of_entry (h : d.entry a = some x) : d.lookup a = x := by
  rw [lookup, h]
  rfl

theorem HasTable.exists (h : d.HasTable a) : ∃ t, d.pde (pdx a) = some t := Option.isSome_iff_exists.mp h

theorem hasTable_setTable :
    (d.setTable i t).HasTable b ↔ pdx b = i ∨ d.HasTable b := by
  by_cases h : pdx b = i
  · simp [HasTable, setTable, h]
  · simp [HasTable, setTable, h]

theorem pde_setTable_of_ne (h : i ≠ j) : (d.setTable j t).pde i = d.pde i :=
  update_of_ne h _ _

theorem lookup_setTable_empty (h : ¬ d.HasTable a) :
    (d.setTable (pdx a) ⟨p, fun _ => none⟩).lookup b = d.lookup b := by
  by_cases hb : pdx b = pdx a
  · have hnone : ¬ d.HasTable b := by rwa [HasTable, hb]
    rw [lookup_eq_none_of_not_hasTable hnone]
    simp [lookup, entry, setTable, hb]
  · simp [lookup, entry, setTable, hb]

theorem hasTable_setEntry : (d.setEntry a e).HasTable b ↔ d.HasTable b := by
  unfold setEntry
  split
  case h_1 => rfl
  case h_2 t ht =>
    rw [hasTable_setTable, or_iff_right_iff_imp]
    intro hb
    rw [HasTable, hb, ht]
    rfl

theorem pde_setEntry_of_ne (h : i ≠ pdx a) : (d.setEntry a e).pde i = d.pde i := by
  unfold setEntry
  split
  case h_1 => rfl
  case h_2 => exact pde_setTable_of_ne h

theorem lookup_setEntry (h : d.HasTable a) :
    (d.setEntry a e).lookup b = if pdx b = pdx a ∧ ptx b = ptx a then e else d.lookup b := by
  obtain ⟨t, ht⟩ := h.exists
  by_cases hb : pdx b = pdx a
  · by_cases hb' : ptx b = ptx a
    · simp [setEntry, ht, lookup, entry, setTable, hb, hb']
    · simp [setEntry, ht, lookup, entry, setTable, hb, hb']
  · simp [setEntry, ht, lookup, entry, setTable, hb]

theorem lookup_setEntry_self (h : d.HasTable a) : (d.setEntry a e).lookup a = e := by
  rw [lookup_setEntry h, if_pos ⟨rfl, rfl⟩]

theorem lookup_setEntry_of_ne (ha : a < maxPage) (hb : b < maxPage) (hne : b ≠ a) :
    (d.setEntry a e).lookup b = d.lookup b := by
  by_cases h : d.HasTable a
  · rw [lookup_setEntry h, if_neg]
    rintro ⟨hp, ht⟩
    exact hne (eq_of_pdx_ptx hb ha hp ht)
  · have hnone : d.pde (pdx a) = none := by simpa [HasTable] using h
    rw [setEntry, hnone]

def frameOf : Option Pte → Multiset Page
  | none => 0
  | some e => {e.frame}

def tablePages (i : Fin 1024) : Option PageTable → Multiset Page
  | none => 0
  | some t => {t.page} + if i.val < 512 then ∑ j, frameOf (t.pte j) else 0

def pages (d : Pgdir) : Multiset Page := {d.page} + ∑ i, tablePages i (d.pde i)

def owned (a : Nat) (e : Option Pte) : Multiset Page := if (pdx a).val < 512 then frameOf e else 0

theorem owned_user (h : (pdx a).val < 512) (x : Pte) : owned a (some x) = {x.frame} := if_pos h

theorem owned_none : owned a none = 0 := by
  unfold owned
  split <;> rfl

theorem pages_setTable :
    (d.setTable i t).pages + tablePages i (d.pde i) = d.pages + tablePages i (some t) := by
  have h := sum_update_add tablePages d.pde i (some t)
  simp only [pages, setTable, add_assoc, h]

theorem pages_setTable_empty (h : ¬ d.HasTable a) :
    (d.setTable (pdx a) ⟨p, fun _ => none⟩).pages = d.pages + {p} := by
  have hnone : d.pde (pdx a) = none := by simpa [HasTable] using h
  have hpages := pages_setTable (d := d) (i := pdx a) (t := ⟨p, fun _ => none⟩)
  simpa [hnone, tablePages, frameOf] using hpages

theorem tablePages_update :
    tablePages i (some { t with pte := update t.pte j x }) +
        (if i.val < 512 then frameOf (t.pte j) else 0) =
      tablePages i (some t) + if i.val < 512 then frameOf x else 0 := by
  simp only [tablePages]
  split
  case isTrue =>
    have h := sum_update_add (fun _ => frameOf) t.pte j x
    rw [add_assoc, add_assoc, h]
  case isFalse => rfl

theorem pages_setEntry (h : d.HasTable a) :
    (d.setEntry a e).pages + owned a (d.lookup a) = d.pages + owned a e := by
  obtain ⟨t, ht⟩ := h.exists
  have hlookup : d.lookup a = t.pte (ptx a) := by simp [lookup, entry, ht]
  have htable := pages_setTable (d := d) (i := pdx a)
    (t := { t with pte := update t.pte (ptx a) e })
  have hupdate := tablePages_update (i := pdx a) (j := ptx a) (t := t) (x := e)
  rw [ht] at htable
  simp only [setEntry, ht, hlookup, owned]
  have hsum : (d.setTable (pdx a) { t with pte := update t.pte (ptx a) e }).pages +
        (if (pdx a).val < 512 then frameOf (t.pte (ptx a)) else 0) + tablePages (pdx a) (some t) =
      d.pages + (if (pdx a).val < 512 then frameOf e else 0) + tablePages (pdx a) (some t) := by
    rw [add_right_comm, htable, add_assoc, hupdate, ← add_assoc, add_right_comm]
  exact add_right_cancel hsum

theorem tablePages_of_lookup_none (h : ∀ b < kernbase, d.lookup b = none) (i : Fin 1024) :
    tablePages i (d.pde i) = (d.pde i).elim 0 fun t => {t.page} := by
  cases ht : d.pde i with
  | none => rfl
  | some t =>
    by_cases hi : i.val < 512
    · have hnone : ∀ j, t.pte j = none := by
        intro j
        have hb : i.val * 1024 + j.val < kernbase := by
          have := j.isLt
          simp only [kernbase]
          omega
        have hpdx : pdx (i.val * 1024 + j.val) = i := by
          apply Fin.ext
          simp only [pdx, Fin.ofNat]
          omega
        have hptx : ptx (i.val * 1024 + j.val) = j := by
          apply Fin.ext
          simp only [ptx, Fin.ofNat]
          omega
        have hlookup := h _ hb
        simpa [lookup, entry, hpdx, hptx, ht] using hlookup
      simp [tablePages, hi, hnone, frameOf]
    · simp [tablePages, hi]

theorem pages_of_lookup_none (h : ∀ b < kernbase, d.lookup b = none) :
    d.pages = {d.page} + ∑ i, (d.pde i).elim 0 fun t => {t.page} := by
  simp only [pages, tablePages_of_lookup_none h]

-- a sum over 1024 tables is not to be computed to compare two address spaces
attribute [irreducible] pages

end Pgdir

end Xv6.Vm
