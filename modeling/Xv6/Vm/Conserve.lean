import Xv6.Vm.Boot

namespace Xv6.Vm

open Lib Prog Pgdir

def Conserved (L : Layout) (s : System) : Prop :=
  ∀ v, L.endPg ≤ v → v < phystop → (places s).count v = 1

theorem Conserved.of_places (h : places s = bootPages L) : Conserved L s := by
  intro v hlo hhi
  rw [h]
  exact Multiset.count_eq_one_of_mem bootPages_nodup (mem_bootPages.mpr ⟨hlo, hhi⟩)

theorem Conserved.le (h : Conserved L s) : bootPages L ≤ places s := by
  rw [Multiset.le_iff_count]
  intro v
  by_cases hv : v ∈ bootPages L
  · obtain ⟨hlo, hhi⟩ := mem_bootPages.mp hv
    rw [h v hlo hhi, Multiset.count_eq_one_of_mem bootPages_nodup hv]
  · rw [Multiset.count_eq_zero_of_notMem hv]
    exact Nat.zero_le _

structure Whole (L : Layout) (s : System) : Prop where
  sound : Sound s
  pages : places s = bootPages L

theorem Whole.step (h : Step L s c t) (htame : c.2.Tame) (hs : Whole L s) : Whole L t := by
  obtain ⟨hactive, hrun⟩ := h
  have hout := (Call.run_finishes hs.sound hactive c.2).of_ok hrun
  exact ⟨hout.sound, (hout.kept htame).trans hs.pages⟩

theorem Booted.whole (h : Booted L s) : Whole L s := ⟨h.sound, h.pages⟩

theorem pages_conserved (L : Layout) (aps : Fin ncpu) (s₀ u : System) (es : List (System × Slot × Call))
    (hboot : boot L aps System.zero = .ok ((), s₀)) (hrun : Run (Step L) s₀ es u)
    (htame : ∀ e ∈ es, e.2.2.Tame) : Run.Always (Conserved L) es u := by
  have hwhole : Run.Always (Whole L) es u := hrun.always_invariant (C := fun _ c => c.2.Tame)
    (fun s c t hstep htame hs => hs.step hstep htame) htame (booted_of_boot hboot).whole
  exact ⟨fun e he => .of_places (hwhole.1 e he).pages, .of_places hwhole.2.pages⟩

def lowTables : Finset (Fin 1024) := Finset.univ.filter fun i => i.val < 9

theorem card_lowTables : lowTables.card = 9 := by decide +kernel

structure Large (L : Layout) (s : System) : Prop where
  whole : Whole L s
  room : Room 1000 s.files.kmem
  active : (s.proc 0).Active
  size : (s.proc 0).sz = 33566720
  memory : ∃ d x, (s.proc 0).pgdir = some d ∧ d.lookup 0 = some x

theorem growproc_large (h : Booted L s) :
    Finishes Impossible (growproc L 0 33562624) s fun _ t => Room 1000 t.files.kmem ∧ (t.proc 0).Active ∧
      (t.proc 0).sz = 33566720 ∧ ∃ d x, (t.proc 0).pgdir = some d ∧ d.lookup 0 = some x := by
  obtain ⟨d, hd, ⟨x, hx⟩, hnone⟩ := h.memory
  have hround : (pgroundup 4096).toNat / 4096 = 1 := by decide
  have hmissing : missing d lowTables ≤ 9 := missing_le.trans card_lowTables.le
  have hroom : Room (missing d lowTables + (8195 + 1000)) s.files.kmem :=
    ⟨by have := h.room.enough; omega, h.room.whole⟩
  have hS : ∀ a ∈ pagesBelow ((pgroundup 4096).toNat / 4096) (4096 + 33562624), pdx a ∈ lowTables := by
    intro a ha
    have hrange := List.mem_range'_1.mp ha
    have hbound : a < 8195 := by
      rw [hround] at hrange
      exact hrange.2
    simp only [lowTables, pdx, Fin.ofNat, Finset.mem_filter, Finset.mem_univ, true_and]
    omega
  have halloc := allocuvm_room (L := L) (d := d) (by decide) (by decide) hS
    (fun a ha ha' => hnone a (by omega) ha') hroom
  refine .get ?_
  dsimp only
  rw [if_pos (by decide), h.size, hd]
  refine .bind (onMem_never (halloc.mono fun r m hr => ?_)) fun r t ht => ht
  obtain ⟨hsize, hroom', hkept⟩ := hr
  obtain ⟨d', sz⟩ := r
  dsimp only at hsize hroom' hkept ⊢
  subst hsize
  rw [if_neg (by decide)]
  have hzero : d'.lookup 0 = some x := by
    rw [hkept.lookup 0 (by decide) fun hmem => ?_, hx]
    have hrange := List.mem_range'_1.mp hmem
    omega
  have hactive := h.active
  refine ⟨⟨by have := hroom'.enough; dsimp only; omega, hroom'.whole⟩, ?_, ?_, d', x, ?_, hzero⟩
  · simpa [Task.Active] using hactive
  · simp
  · simp

theorem sbrk_large (h : Booted L s) : ∃ t, Step L s (0, .sbrk 33562624) t ∧ Large L t := by
  have hsbrk : Finishes Impossible (sysSbrk L 0 33562624) s fun _ t => Room 1000 t.files.kmem ∧ (t.proc 0).Active ∧
      (t.proc 0).sz = 33566720 ∧ ∃ d x, (t.proc 0).pgdir = some d ∧ d.lookup 0 = some x := by
    refine .get ((growproc_large h).bind fun r t ht => ?_)
    split
    case isTrue => exact .pure ht
    case isFalse => exact .pure ht
  obtain ⟨_, t, hrun, hroom, hactive, hsize, hmemory⟩ := (Finishes.discard hsbrk).exists_ok fun _ => id
  have hstep : Step L s (0, .sbrk 33562624) t := ⟨h.active, hrun⟩
  exact ⟨t, hstep, h.whole.step hstep trivial, hroom, hactive, hsize, hmemory⟩

def strayWord (f : Page) : Word := BitVec.ofNat 32 (f * 4096 + 5)

section stray

theorem strayWord_bits (hf : f < phystop) : (strayWord f).getLsbD 0 = true ∧ (strayWord f).getLsbD 2 = true ∧
    (strayWord f >>> 12).toNat = f := by
  have hphys : phystop = 57344 := rfl
  have hnat : (strayWord f).toNat = f * 4096 + 5 := by
    rw [strayWord, BitVec.toNat_ofNat]
    exact Nat.mod_eq_of_lt (by omega)
  refine ⟨?_, ?_, ?_⟩
  · rw [BitVec.getLsbD, hnat, Nat.testBit_eq_decide_div_mod_eq]
    simp
    omega
  · rw [BitVec.getLsbD, hnat, Nat.testBit_eq_decide_div_mod_eq]
    simp
    omega
  · rw [BitVec.toNat_ushiftRight, hnat, Nat.shiftRight_eq_div_pow]
    omega

theorem copyout_stray (h : Ready d sz) (hgap : d.pde (pdx 1040383) = none) (hf : f < phystop)
    (hm : m.freelist = f :: rest) :
    copyout (some (strayWord f)) d 4261408768 33566720 m = .ok (false, ⟨[f], true⟩) := by
  obtain ⟨h0, h2, hframe⟩ := strayWord_bits hf
  obtain ⟨x, hx, huser⟩ := h.device 1040384 le_rfl (by decide)
  have hfirst : uva2ka (some (strayWord f)) d 1040383 = pure (some (.stray f)) := by
    have hentry : d.entry 1040383 = none := by simp [entry, hgap]
    simp [uva2ka, hentry, h0, h2, hframe]
  have hsecond : uva2ka (some (strayWord f)) d 1040384 = pure none := by
    simp [uva2ka, entry_of_lookup hx, huser]
  have hmove : memmove 0 4096 (.stray f) m = .ok ((), ⟨[f], true⟩) := by
    rw [memmove_stray, hm, if_pos List.mem_cons_self, if_pos ⟨rfl, by decide⟩]
    simp
  have hpage : (4261408768 : Word).toNat / 4096 = 1040383 := by decide
  have hpage' : ((4261408768 &&& ~~~4095) + 4096 : Word).toNat / 4096 = 1040384 := by decide
  have hoff : (4261408768 - (4261408768 &&& ~~~4095) : Word) = 0 := by decide
  have hlen : (if (33566720 : Word) < 4096 - 0 then 33566720 else 4096 - 0 : Word) = 4096 := by decide
  change copyoutLoop (some (strayWord f)) d (33566718 + 1 + 1) 4261408768 33566720 m = _
  rw [copyoutLoop, if_neg (by decide), hpage, hfirst, pure_bind]
  dsimp only
  rw [hoff, hlen]
  refine (bind_ok hmove).trans ?_
  rw [copyoutLoop, if_neg (by decide), hpage', hsecond]
  rfl

structure NewStack (L : Layout) (m : Kmem) (d d₁ d₂ : Pgdir) (m₂ m₃ : Kmem) : Prop where
  setup : setupkvm L m = .ok (some d, m₂)
  alloc : allocuvm L d 0 8192 m₂ = .ok ((d₁, 8192), m₃)
  clear : clearpteu d₁ 0 m₃ = .ok (d₂, m₃)
  ready : Ready d₂ 8192
  gap : d₂.pde (pdx 1040383) = none
  pages : free m₃ + d₂.pages = free m
  room : 2 ≤ m₃.freelist.length

theorem newStack (h : Room 1000 m) : ∃ d d₁ d₂ m₂ m₃, NewStack L m d d₁ d₂ m₂ m₃ := by
  have hroom : Room (65 + 900) m := ⟨by have := h.enough; omega, h.whole⟩
  obtain ⟨_, m₂, hsetup, ⟨d, rfl, hfresh, hroom₂⟩, hfree₂⟩ :=
    ((setupkvm_balances (L := L) (i := 0)).finishes (setupkvm_room hroom)).exists_ok fun _ => id
  rw [add_zero, add_zero] at hfree₂
  have hmissing : missing d {pdx 0} ≤ 1 := missing_le.trans (by simp)
  have hS : ∀ a ∈ pagesBelow ((pgroundup 0).toNat / 4096) 8192, pdx a ∈ ({pdx 0} : Finset (Fin 1024)) := by decide
  have hroom₂' : Room (missing d {pdx 0} + (2 + 2)) m₂ := ⟨by have := hroom₂.enough; omega, hroom₂.whole⟩
  have halloc := allocuvm_room (L := L) (by decide) (by decide) hS (fun a _ ha => hfresh.user a ha) hroom₂'
  obtain ⟨⟨d₁, sz⟩, m₃, halloc, ⟨⟨rfl, hroom₃, hkept⟩, hfree₃⟩, hready⟩ :=
    ((allocuvm_returns hfresh.ready).finishes (allocuvm_balances.finishes halloc)).exists_ok fun _ => id
  have hready : Ready d₁ 8192 := hready (show (8192 : Word) ≠ 0 by decide)
  obtain ⟨t, ht⟩ := (hready.tables 0 (by decide)).exists
  have hclear : clearpteu d₁ 0 m₃ =
      .ok (d₁.setEntry 0 ((t.pte (ptx 0)).map fun e => { e with user := false }), m₃) := by
    simp only [clearpteu, entry, ht, Option.map_some]
    rfl
  refine ⟨d, d₁, _, m₂, m₃, hsetup, halloc, hclear, clearpteu_returns hready (by decide) _ _ _ hclear, ?_, ?_, ?_⟩
  · have hbetween := hfresh.between (pdx 1040383) (by decide) (by decide)
    rw [pde_setEntry_of_ne (by decide), hkept.other (pdx 1040383) (by decide), hbetween]
  · have hfree := clearpteu_balances _ _ _ hclear
    exact hfree.trans (hfree₃.trans hfree₂)
  · have := hroom₃.enough
    omega

theorem loadImage_stray (h : NewStack L m d d₁ d₂ m₂ m₃) (hf : f < phystop)
    (hm : m₃.freelist = f :: rest) (hvalid : ∀ v ∈ d₂.pages, Valid L v) :
    ∃ m', loadImage L (some (strayWord f)) ⟨true, []⟩ [33566719] m = .ok (none, m') ∧ free m' = {f} + d₂.pages := by
  have hcopy := copyout_stray h.ready h.gap hf hm
  have hpush : pushArgs (some (strayWord f)) d₂ 0 8192 [33566719] m₃ = .ok (none, ⟨[f], true⟩) := by
    have hsp : (8192 - BitVec.ofNat 32 (33566719 + 1) : Word) &&& ~~~3 = 4261408768 := by decide
    rw [pushArgs, if_neg (by decide), hsp]
    exact bind_ok hcopy
  have hstack : setupStack L (some (strayWord f)) d 0 [33566719] m₂ = .ok ((d₂, none), ⟨[f], true⟩) := by
    have hround : pgroundup 0 = 0 := by decide
    rw [setupStack, hround]
    refine (bind_ok h.alloc).trans ?_
    dsimp only
    rw [if_neg (by decide)]
    refine (bind_ok h.clear).trans ?_
    exact bind_ok hpush
  obtain ⟨_, m', hfreevm, -⟩ := (freevm_valid hvalid).exists_ok fun _ => id
  refine ⟨m', ?_, ?_⟩
  · rw [loadImage, if_neg (by decide)]
    refine (bind_ok h.setup).trans ((bind_ok (rfl : loadSegments L [] d 0 m₂ = .ok ((d, some 0), m₂))).trans ?_)
    refine (bind_ok hstack).trans ?_
    exact bind_ok hfreevm
  · have hfree := freevm_balances (i := 0) _ _ _ hfreevm
    simpa [free] using hfree

end stray

theorem not_conserved (h : Whole L s) (hcard : (free m).card < (free s.files.kmem).card) :
    ¬ Conserved L { s with files := { s.files with kmem := m } } := by
  intro hconserved
  have hle := Multiset.card_le_card hconserved.le
  have hplaces : places { s with files := { s.files with kmem := m } } + free s.files.kmem = places s + free m := by
    unfold places filePages
    abel
  have hsum := congrArg Multiset.card hplaces
  rw [Multiset.card_add, Multiset.card_add, h.pages] at hsum
  omega

theorem free_le_places (s : System) : free s.files.kmem ≤ places s := by
  rw [places, filePages, add_assoc, add_assoc]
  exact Multiset.le_add_right _ _

theorem Large.valid (h : Large L s) (hv : v ∈ places s) : Valid L v := by
  rw [← mem_bootPages, ← h.whole.pages]
  exact hv

theorem Large.valid_new (h : Large L s) (hstack : NewStack L s.files.kmem d d₁ d₂ m₂ m₃)
    (hv : v ∈ free m₃ + d₂.pages) : Valid L v :=
  h.valid (Multiset.mem_of_le (free_le_places s) (hstack.pages ▸ hv))

theorem exec_loses (h : Large L s) : ∃ w t, Step L s (0, .exec w (some ⟨true, []⟩) [33566719]) t ∧ ¬ Conserved L t := by
  obtain ⟨d, d₁, d₂, m₂, m₃, hstack⟩ := newStack (L := L) h.room
  obtain ⟨f, g, rest, hm⟩ : ∃ f g rest, m₃.freelist = f :: g :: rest := by
    have hroom := hstack.room
    match hlist : m₃.freelist with
    | [] => simp [hlist] at hroom
    | [_] => simp [hlist] at hroom
    | f :: g :: rest => exact ⟨f, g, rest, rfl⟩
  have hf : Valid L f := by
    refine h.valid_new hstack (Multiset.mem_add.mpr (.inl ?_))
    rw [free, hm]
    exact List.mem_cons_self
  have hpages : ∀ v ∈ d₂.pages, Valid L v := fun v hv => h.valid_new hstack (Multiset.mem_add.mpr (.inr hv))
  obtain ⟨m', hload, hfree⟩ := loadImage_stray hstack hf.2 hm hpages
  refine ⟨strayWord f, { s with files := { s.files with kmem := m' } }, ⟨h.active, ?_⟩, not_conserved h.whole ?_⟩
  · obtain ⟨d', x, hd', hx⟩ := h.memory
    have hword : ((s.proc 0).pgdir.bind fun d => (d.entry 0).join).isSome = true := by
      rw [hd', Option.bind_some, ← Pgdir.lookup, hx]
      rfl
    have hargs : ¬(32 ≤ [33566719].length ∨ [33566719].any (fun n => (s.proc 0).sz.toNat < n + 1) = true) := by
      rw [h.size]
      decide
    have hexec : exec L 0 (strayWord f) (some ⟨true, []⟩) [33566719] s =
        .ok (-1, { s with files := { s.files with kmem := m' } }) := by
      have hmem : onFiles (onKmem (loadImage L (some (strayWord f)) ⟨true, []⟩ [33566719])) s =
          .ok (none, { s with files := { s.files with kmem := m' } }) := by
        simp only [onFiles, onKmem, hload]
      have hget : (MonadState.get : S System) s = .ok (s, s) := rfl
      refine (bind_ok hget).trans ?_
      dsimp only
      rw [if_neg hargs, if_pos hword]
      exact bind_ok hmem
    change (exec L 0 (strayWord f) (some ⟨true, []⟩) [33566719] >>= fun _ => pure ()) s = _
    exact bind_ok hexec
  · rw [hfree, ← hstack.pages, Multiset.card_add, Multiset.card_add, Multiset.card_singleton]
    have hcard : (free m₃).card = m₃.freelist.length := rfl
    have hroom := hstack.room
    omega

theorem exec_loses_pages : ∃ s₀ s₁ w u, boot smallKernel 1 System.zero = .ok ((), s₀) ∧
    Run (Step smallKernel) s₀
      [(s₀, 0, .sbrk 33562624), (s₁, 0, .exec w (some ⟨true, []⟩) [33566719])] u ∧
    ¬ Conserved smallKernel u := by
  obtain ⟨s₀, hboot, hbooted⟩ := exists_boot smallKernel 1
  obtain ⟨s₁, hsbrk, hlarge⟩ := sbrk_large hbooted
  obtain ⟨w, u, hexec, hlost⟩ := exec_loses hlarge
  exact ⟨s₀, s₁, w, u, hboot, .cons hsbrk (.single hexec), hlost⟩

theorem loadImage_never (h : NewStack L m d d₁ d₂ m₂ m₃) (hvalid : ∀ v ∈ d₂.pages, Valid L v) (word0 : Option Word) :
    Finishes Never (loadImage L word0 ⟨true, []⟩ [5]) m fun _ _ => True := by
  have hargs : ∀ n ∈ [5], n + 4 ≤ 33554432 := by decide
  obtain ⟨r, hpush, hsp⟩ := pushArgs_eq word0 h.ready (le_refl (8192 : Word).toNat) (Nat.zero_le 32) hargs
  have hstack : Finishes Never (setupStack L word0 d 0 [5]) m₂ fun r _ => r.1 = d₂ := by
    have hround : pgroundup 0 = 0 := by decide
    rw [setupStack, hround]
    refine .run h.alloc ?_
    dsimp only
    rw [if_neg (by decide)]
    refine .run h.clear ?_
    rw [hpush]
    cases r with
    | none => exact .pure rfl
    | some sp =>
      obtain ⟨b, hcopy, -⟩ := copyout_push word0 h.ready (hsp sp rfl).1 (show 0 < (3 + [5].length + 1) * 4 by decide)
        (by decide) (.inl rfl)
      rw [pure_bind]
      dsimp only
      rw [hcopy]
      cases b with
      | false => exact .pure rfl
      | true => exact .pure rfl
  rw [loadImage, if_neg (by decide)]
  refine .run h.setup (.run (rfl : loadSegments L [] d 0 m₂ = .ok ((d, some 0), m₂)) (hstack.bind ?_))
  rintro ⟨d₃, r⟩ m₄ rfl
  cases r with
  | none => exact (freevm_valid hvalid).bind fun _ _ _ => .pure trivial
  | some sz => exact .pure trivial

theorem exec_tame (h : Large L s) (word : Word) : ∃ t, Step L s (0, .exec word (some ⟨true, []⟩) [5]) t := by
  obtain ⟨d, d₁, d₂, m₂, m₃, hstack⟩ := newStack (L := L) h.room
  have hnew : ∀ v ∈ d₂.pages, Valid L v := fun v hv => h.valid_new hstack (Multiset.mem_add.mpr (.inr hv))
  obtain ⟨d', x, hd', -⟩ := h.memory
  have hold : ∀ v ∈ d'.pages, Valid L v := by
    intro v hv
    refine h.valid (Multiset.mem_add.mpr (.inl (Multiset.mem_add.mpr (.inr ?_))))
    rw [Multiset.mem_sum]
    refine ⟨0, Finset.mem_univ 0, ?_⟩
    rw [Task.pages, if_neg h.active.1, hd']
    exact Multiset.mem_add.mpr (.inr hv)
  have hargs : ¬(32 ≤ [5].length ∨ [5].any (fun n => (s.proc 0).sz.toNat < n + 1) = true) := by
    rw [h.size]
    decide
  have hexec : Finishes Impossible (exec L 0 word (some ⟨true, []⟩) [5]) s fun _ _ => True := by
    refine .get ?_
    dsimp only
    rw [if_neg hargs]
    refine (onMem_never (Q := fun _ _ => True) (loadImage_never hstack hnew _)).bind fun r t _ => ?_
    cases r with
    | none => exact .pure trivial
    | some r =>
      refine .modify ?_
      rw [hd']
      exact (onMem_never (Q := fun _ _ => True) (freevm_valid hold)).bind fun _ _ _ => .pure trivial
  obtain ⟨_, t, hrun, -⟩ := (Finishes.discard hexec).exists_ok fun _ => id
  exact ⟨t, h.active, hrun⟩

theorem pages_conserved_sbrk_exec : ∃ s₀ s₁ u, boot smallKernel 1 System.zero = .ok ((), s₀) ∧
    Run (Step smallKernel) s₀ [(s₀, 0, .sbrk 33562624), (s₁, 0, .exec 7 (some ⟨true, []⟩) [5])] u ∧
    Run.Always (Conserved smallKernel) [(s₀, (0 : Slot), Call.sbrk 33562624),
      (s₁, 0, .exec 7 (some ⟨true, []⟩) [5])] u := by
  obtain ⟨s₀, hboot, hbooted⟩ := exists_boot smallKernel 1
  obtain ⟨s₁, hsbrk, hlarge⟩ := sbrk_large hbooted
  obtain ⟨u, hexec⟩ := exec_tame hlarge 7
  have hrun : Run (Step smallKernel) s₀ [(s₀, 0, .sbrk 33562624), (s₁, 0, .exec 7 (some ⟨true, []⟩) [5])] u :=
    .cons hsbrk (.single hexec)
  refine ⟨s₀, s₁, u, hboot, hrun, pages_conserved smallKernel 1 s₀ u _ hboot hrun ?_⟩
  rw [List.forall_mem_cons, List.forall_mem_singleton]
  have hargs : ∀ n ∈ [5], n + 4 ≤ 33554432 := by decide
  exact ⟨trivial, hargs⟩

end Xv6.Vm
