import Xv6.Paging.Space
import Xv6.User.Malloc
import Xv6.Vm.System
import Xv6.Vm.Tables

/-! `growproc` is here three times: with the words of physical memory, with the pages of all processes,
and with no more than the size.  The first two give the sizes of the third. -/

namespace Xv6.Umalloc

open Lib Prog

variable {L : Vm.Layout} {sz sz' oldsz newsz new n : Word}

/-- What `growproc` makes of the size, and its result. -/
def Sized (n sz sz' : Word) (r : Int) : Prop :=
  ∃ avail, ∀ s : Heap, s.sz = sz.toNat → ∃ t, growproc avail n s = .ok (decide (r = 0), t) ∧ t.sz = sz'.toNat

def Allocs (oldsz newsz new : Word) : Prop :=
  if 0x80000000 ≤ newsz then new = 0
  else if newsz < oldsz then new = oldsz
  else new = newsz ∨ new = 0 ∧ Vm.pgroundup oldsz < newsz

theorem Allocs.exists_avail (h : Allocs oldsz newsz new) :
    ∃ avail, new.toNat = allocuvm avail oldsz.toNat newsz.toNat := by
  have hround : (Vm.pgroundup oldsz).toNat = pgroundup oldsz.toNat := by
    rw [Vm.pgroundup, Vm.toNat_pgrounddown, BitVec.toNat_add]
    rfl
  unfold Allocs at h
  simp only [BitVec.le_def, BitVec.lt_def, hround, show (0x80000000 : Word).toNat = 0x80000000 from rfl] at h
  simp only [allocuvm, ge_iff_le, kernbase]
  split at h
  · exact ⟨true, by rw [if_pos (by assumption), h]; rfl⟩
  · split at h
    · exact ⟨true, by rw [if_neg (by assumption), if_pos (by assumption), h]⟩
    · rcases h with rfl | ⟨rfl, hlt⟩
      · exact ⟨true, by simp [*]⟩
      · exact ⟨false, by simp [*]⟩

theorem toNat_eq_zero : new.toNat = 0 ↔ new = 0 := BitVec.toNat_inj (y := 0)

theorem sized_of (hpos : 0 < n.toInt → Allocs sz (sz + n) new)
    (hneg : n.toInt < 0 → new = if sz ≤ sz + n then sz else sz + n) (hn : n.toInt ≠ 0)
    (hzero : new = 0 → sz' = sz ∧ r = -1) (hne : new ≠ 0 → sz' = new ∧ r = 0) : Sized n sz sz' r := by
  have hnat : new.toNat = 0 ↔ new = 0 := BitVec.toNat_inj (y := 0)
  by_cases hlt : 0 < n.toInt
  · obtain ⟨avail, havail⟩ := (hpos hlt).exists_avail
    refine ⟨avail, fun s hs => ?_⟩
    rw [growproc_pos avail hlt, hs, ← BitVec.toNat_add, ← havail]
    by_cases h0 : new = 0
    · obtain ⟨rfl, rfl⟩ := hzero h0
      rw [if_pos (hnat.mpr h0)]
      exact ⟨s, rfl, hs⟩
    · obtain ⟨rfl, rfl⟩ := hne h0
      rw [if_neg (mt hnat.mp h0)]
      exact ⟨_, rfl, rfl⟩
  · have hn : n.toInt < 0 := by omega
    refine ⟨true, fun s hs => ?_⟩
    have hsize : deallocuvm s.sz ((s.sz + n.toNat) % 2 ^ 32) = new.toNat := by
      rw [hs, ← BitVec.toNat_add, hneg hn, deallocuvm, apply_ite BitVec.toNat]
      rfl
    rw [growproc, bind_ok get_eq]
    simp only [if_neg (show ¬n.toInt > 0 by omega), if_pos hn, hsize]
    by_cases h0 : new = 0
    · obtain ⟨rfl, rfl⟩ := hzero h0
      rw [if_pos (hnat.mpr h0)]
      refine ⟨_, rfl, ?_⟩
      split <;> exact hs
    · obtain ⟨rfl, rfl⟩ := hne h0
      rw [if_neg (mt hnat.mp h0)]
      exact ⟨_, rfl, rfl⟩

theorem sized_zero (hn : n.toInt = 0) : Sized n sz sz 0 := by
  refine ⟨true, fun s hs => ⟨s, ?_, hs⟩⟩
  rw [growproc, bind_ok get_eq]
  simp only [if_neg (show ¬n.toInt > 0 by omega), if_neg (show ¬n.toInt < 0 by omega)]
  rfl

theorem allocs_of_allocLoop (h : Paging.allocLoop L pd oldsz newsz fuel a m = .ok (new, m')) :
    new = newsz ∨ new = 0 ∧ a < newsz := by
  induction fuel generalizing a m with
  | zero => cases h
  | succ fuel ih =>
    unfold Paging.allocLoop at h
    split at h
    case isFalse =>
      cases h
      exact .inl rfl
    case isTrue hlt =>
      obtain ⟨_ | mem, m₁, -, h⟩ := of_bind_ok h
      · obtain ⟨_, _, -, h⟩ := of_bind_ok h
        cases h
        exact .inr ⟨rfl, hlt⟩
      · obtain ⟨_, _, -, h⟩ := of_bind_ok h
        obtain ⟨ok, _, -, h⟩ := of_bind_ok h
        cases ok with
        | true => exact (ih h).imp_right fun hr => ⟨hr.1, hlt⟩
        | false =>
          obtain ⟨_, _, -, h⟩ := of_bind_ok h
          obtain ⟨_, _, -, h⟩ := of_bind_ok h
          cases h
          exact .inr ⟨rfl, hlt⟩

theorem allocs_paging (h : Paging.allocuvm L pd oldsz newsz m = .ok (new, m')) : Allocs oldsz newsz new := by
  unfold Paging.allocuvm at h
  unfold Allocs
  split at h
  · cases h
    rw [if_pos (by assumption)]
  · split at h
    · cases h
      rw [if_neg (by assumption), if_pos (by assumption)]
    · rw [if_neg (by assumption), if_neg (by assumption)]
      exact allocs_of_allocLoop h

theorem vm_allocLoop (h : Vm.allocLoop L oldsz newsz as d k = .ok ((d', new), k')) :
    new = newsz ∨ new = 0 ∧ as ≠ [] := by
  induction as generalizing d k with
  | nil =>
    cases h
    exact .inl rfl
  | cons a as ih =>
    unfold Vm.allocLoop at h
    obtain ⟨_ | mem, _, -, h⟩ := of_bind_ok h
    · obtain ⟨_, _, -, h⟩ := of_bind_ok h
      cases h
      exact .inr ⟨rfl, List.cons_ne_nil a as⟩
    · obtain ⟨⟨_, ok⟩, _, -, h⟩ := of_bind_ok h
      cases ok with
      | true => exact (ih h).imp_right fun hr => ⟨hr.1, List.cons_ne_nil a as⟩
      | false =>
        obtain ⟨_, _, -, h⟩ := of_bind_ok h
        obtain ⟨_, _, -, h⟩ := of_bind_ok h
        cases h
        exact .inr ⟨rfl, List.cons_ne_nil a as⟩

theorem allocs_vm (h : Vm.allocuvm L d oldsz newsz k = .ok ((d', new), k')) : Allocs oldsz newsz new := by
  unfold Vm.allocuvm at h
  unfold Allocs
  split at h
  · cases h
    rw [if_pos (by assumption)]
  · split at h
    · cases h
      rw [if_neg (by assumption), if_pos (by assumption)]
    · rw [if_neg (by assumption), if_neg (by assumption)]
      refine (vm_allocLoop h).imp_right fun hr => ⟨hr.1, ?_⟩
      have hpos : (newsz.toNat + 4095) / 4096 - (Vm.pgroundup oldsz).toNat / 4096 ≠ 0 := fun h0 =>
        hr.2 (by rw [Vm.pagesBelow, h0]; rfl)
      have hround := Vm.toNat_pgrounddown (oldsz + 4095)
      rw [BitVec.lt_def, Vm.pgroundup, hround]
      rw [Vm.pgroundup, hround] at hpos
      omega

theorem sized_paging (h : Paging.growproc L p n m = .ok ((p', r), m')) : Sized n p.sz p'.sz r := by
  have hresult : ∀ {new m₁}, (if new = 0 then pure (p, -1) else pure ({ p with sz := new }, 0) : Paging.M _) m₁ =
      .ok ((p', r), m') → (new = 0 → p'.sz = p.sz ∧ r = -1) ∧ (new ≠ 0 → p'.sz = new ∧ r = 0) := by
    intro new m₁ h
    split at h <;> cases h <;> simp_all
  unfold Paging.growproc at h
  split at h
  case isTrue hn =>
    obtain ⟨new, _, halloc, h⟩ := of_bind_ok h
    exact sized_of (fun _ => allocs_paging halloc) (fun hneg => by omega) (by omega) (hresult h).1 (hresult h).2
  case isFalse hpos =>
    split at h
    case isTrue hn =>
      obtain ⟨new, _, hdealloc, h⟩ := of_bind_ok h
      refine sized_of (fun hpos' => by omega) (fun _ => ?_) (by omega) (hresult h).1 (hresult h).2
      unfold Paging.deallocuvm at hdealloc
      split at hdealloc
      case isTrue hle =>
        cases hdealloc
        rw [if_pos hle]
      case isFalse hlt =>
        obtain ⟨_, _, -, hdealloc⟩ := of_bind_ok hdealloc
        cases hdealloc
        rw [if_neg hlt]
    case isFalse hneg =>
      cases h
      exact sized_zero (by omega)

theorem withPgdir_ok (h : Vm.withPgdir d e x s = .ok (a, t)) :
    t.proc = s.proc ∧ ∃ d' k, x d' s.files.kmem = .ok (a, k) := by
  cases d with
  | none => cases h
  | some d =>
    simp only [Vm.withPgdir, Vm.onFiles, Vm.onKmem] at h
    cases hx : x d s.files.kmem with
    | error e => simp [hx] at h
    | ok r =>
      simp only [hx, Except.ok.injEq, Prod.mk.injEq] at h
      exact ⟨h.2 ▸ rfl, d, r.2, by rw [← h.1]; exact hx⟩

theorem sized_vm (h : Vm.growproc L p n s = .ok (r, t)) : Sized n (s.proc p).sz (t.proc p).sz r := by
  have hresult : ∀ {new : Word} {d u}, u.proc = s.proc →
      (if new = 0 then do
        Vm.setProc p { s.proc p with pgdir := some d }
        return -1
      else do
        Vm.setProc p { s.proc p with pgdir := some d, sz := new }
        return 0 : Vm.S Int) u = .ok (r, t) →
      (new = 0 → (t.proc p).sz = (s.proc p).sz ∧ r = -1) ∧ (new ≠ 0 → (t.proc p).sz = new ∧ r = 0) := by
    intro new d u hu h
    split at h <;> cases h <;> simp_all
  unfold Vm.growproc at h
  obtain ⟨_, _, hget, h⟩ := of_bind_ok h
  cases hget
  dsimp only at h
  split at h
  case isTrue hn =>
    obtain ⟨⟨d, new⟩, u, halloc, h⟩ := of_bind_ok h
    obtain ⟨hproc, d', k, halloc⟩ := withPgdir_ok halloc
    exact sized_of (fun _ => allocs_vm halloc) (fun hneg => by omega) (by omega) (hresult hproc h).1 (hresult hproc h).2
  case isFalse hpos =>
    split at h
    case isTrue hn =>
      obtain ⟨d, u, hdealloc, h⟩ := of_bind_ok h
      obtain ⟨hproc, -⟩ := withPgdir_ok hdealloc
      exact sized_of (fun hpos' => by omega) (fun _ => rfl) (by omega) (hresult hproc h).1 (hresult hproc h).2
    case isFalse hneg =>
      cases h
      exact sized_zero (by omega)

end Xv6.Umalloc
