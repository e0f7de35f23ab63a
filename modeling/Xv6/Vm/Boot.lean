import Xv6.Vm.Calls
import Xv6.Vm.Room
import Xv6.Lib.Run

namespace Xv6.Vm

open Lib Prog Pgdir
open Fs (FileType nofile nfile)

variable {α : Type}

def bootPages (L : Layout) : Multiset Page := (List.range' L.endPg (phystop - L.endPg) : List Page)

theorem mem_bootPages : v ∈ bootPages L ↔ Valid L v := by
  have hend : L.endPg ≤ phystop := L.end_le.trans (by decide)
  rw [bootPages, Multiset.mem_coe, List.mem_range'_1, Nat.add_sub_cancel' hend, Valid]

theorem bootPages_nodup : (bootPages L).Nodup := List.nodup_range' ..

def Impossible (_ : Halt) : Prop := False

theorem onMem_never
    (h : Finishes Never x s.files.kmem fun a k => Q a { s with files := { s.files with kmem := k } }) :
    Finishes Impossible (onFiles (onKmem x)) s Q := by
  unfold Finishes onFiles onKmem at *
  cases hx : x s.files.kmem with
  | error e =>
    rw [hx] at h
    exact h.elim
  | ok r => rwa [hx] at h

theorem freerange_valid (h : ∀ v ∈ vs, Valid L v) (hroom : Room k m) :
    Finishes Never (freerange L vs) m fun _ t => free t = free m + (vs : Multiset Page) ∧ Room (vs.length + k) t := by
  induction vs generalizing m k with
  | nil => exact .pure ⟨by simp, by simpa using hroom⟩
  | cons v vs ih =>
    obtain ⟨hv, hvs⟩ := List.forall_mem_cons.mp h
    refine (kfree_valid hv).bind fun _ t ht => ?_
    subst ht
    have hroom' : Room (k + 1) { m with freelist := v :: m.freelist } :=
      ⟨by simpa using hroom.enough, hroom.whole⟩
    refine (ih hvs hroom').mono fun _ t ⟨hfree, hroom⟩ => ⟨?_, ?_, hroom.whole⟩
    · rw [hfree]
      simp [free, ← Multiset.cons_coe]
    · have := hroom.enough
      rw [List.length_cons]
      omega

theorem startothers_room (h : Room (n + k) m) :
    Finishes Never (startothers n) m fun r t => Room k t ∧ free t + (r.map stackPage).sum = free m := by
  induction n generalizing m with
  | zero => exact .pure ⟨by simpa using h, by simp⟩
  | succ n ih =>
    have hroom : Room (n + k + 1) m := ⟨by have := h.enough; omega, h.whole⟩
    refine ((kalloc_balances 0).finishes (kalloc_room hroom)).bind fun r t ht => ?_
    obtain ⟨⟨v, rfl, hroom'⟩, hfree⟩ := ht
    refine (ih hroom').bind fun rest u hu => .pure ⟨hu.1, ?_⟩
    rw [List.map_cons, List.sum_cons, add_left_comm, hu.2, add_comm]
    simpa [stackPage] using hfree

theorem allocproc_room (hfind : (List.finRange nproc).find? (fun p => (s.proc p).state = .unused) = some np)
    (h : Room (k + 1) s.files.kmem) :
    Finishes Impossible allocproc s fun r t => r = some np ∧ ∃ v m, Room k m ∧ free m + {v} = free s.files.kmem ∧
      t = Allocated s np (some v) .embryo m := by
  refine .get ?_
  rw [hfind]
  refine .set (.bind (onMem_never (Q := fun r t => ∃ v m, r = some v ∧ Room k m ∧
    free m + {v} = free s.files.kmem ∧ t = Allocated s np (s.proc np).kstack .embryo m) ?_) ?_)
  · refine ((kalloc_balances 0).finishes (kalloc_room h)).mono fun r m hr => ?_
    obtain ⟨⟨v, rfl, hroom⟩, hfree⟩ := hr
    exact ⟨v, m, rfl, hroom, by simpa using hfree, rfl⟩
  · rintro r t ⟨v, m, rfl, hroom, hfree, rfl⟩
    refine .get (.modify (.pure ⟨rfl, v, m, hroom, hfree, ?_⟩))
    simp [Allocated]

structure Booted (L : Layout) (s : System) : Prop where
  sound : Sound s
  files : s.files = { System.zero.files with kmem := s.files.kmem }
  ofile : (s.proc 0).ofile = fun _ => none
  pages : places s = bootPages L
  room : Room 56000 s.files.kmem
  active : (s.proc 0).Active
  size : (s.proc 0).sz = 4096
  memory : ∃ d, (s.proc 0).pgdir = some d ∧ (∃ x, d.lookup 0 = some x) ∧
    ∀ b, 1 ≤ b → b < kernbase → d.lookup b = none

def beforeInit (m : Kmem) (d : Pgdir) (apstacks : List (Option Page)) : System :=
  { System.zero with
    files := { System.zero.files with kmem := m }
    kpgdir := some d
    apstacks := apstacks }

def initTask (kstack : Page) (d : Pgdir) : Task :=
  ⟨.runnable, 1, none, some kstack, some d, 4096, fun _ => none⟩

def afterInit (m : Kmem) (d : Pgdir) (apstacks : List (Option Page)) (init : Task) : System :=
  { beforeInit m d apstacks with
    proc := Function.update System.zero.proc 0 init
    nextpid := 2
    initproc := some 0 }

theorem inituvm_room (hd : Fresh d) (h : Room (k + 1) m) :
    Finishes Never (mappages 0 d 0 e) m fun r t => Room k t ∧ free t + r.1.pages = free m + ({e.frame} + d.pages) ∧
      r.1.lookup 0 = some e ∧ ∀ b, 1 ≤ b → b < kernbase → r.1.lookup b = none := by
  have hmissing : missing d {pdx 0} ≤ 1 := missing_le.trans (by simp)
  have hroom : Room (missing d {pdx 0} + k) m := ⟨by have := h.enough; omega, h.whole⟩
  have hmap := mappage_room (e := e) (by decide) (Finset.mem_singleton_self _) (hd.user 0 (by decide)) hroom
  refine ((mappage_user_balances (by decide)).finishes hmap).mono fun r t hr => ?_
  obtain ⟨⟨⟨hok, hroom'⟩, hmapped⟩, hfree⟩ := hr
  rw [hok, if_pos rfl, add_zero] at hfree
  refine ⟨⟨by have := hroom'.enough; omega, hroom'.whole⟩, hfree, hmapped.entry hok, fun b hb hb' => ?_⟩
  rw [hmapped.lookup b (hb'.trans (by decide)) (by omega), hd.user b hb']

theorem userinit_room (h : Room (k + 68) m) :
    Finishes Impossible (userinit L) (beforeInit m d₀ apstacks) fun _ t =>
      ∃ m' v d, t = afterInit m' d₀ apstacks (initTask v d) ∧ Room k m' ∧ free m' + ({v} + d.pages) = free m ∧
        (∃ x, d.lookup 0 = some x) ∧ ∀ b, 1 ≤ b → b < kernbase → d.lookup b = none := by
  have hroom : Room (k + 67 + 1) (beforeInit m d₀ apstacks).files.kmem := h
  have hfind : (List.finRange nproc).find? (fun p => ((beforeInit m d₀ apstacks).proc p).state = .unused) = some 0 := rfl
  refine (allocproc_room hfind hroom).bind fun r t ht => ?_
  obtain ⟨rfl, v, m₁, hroom₁, hfree₁, rfl⟩ := ht
  refine .modify (.bind (onMem_never (Q := fun r t => ∃ d m₂, r = some d ∧ Fresh d ∧
    Room (k + 2) m₂ ∧ free m₂ + d.pages = free m₁ ∧
    t = { Allocated (beforeInit m d₀ apstacks) 0 (some v) .embryo m₂ with initproc := some 0 }) ?_) ?_)
  · have hroom₁' : Room (65 + (k + 2)) m₁ := ⟨by have := hroom₁.enough; omega, hroom₁.whole⟩
    refine ((setupkvm_balances (i := 0)).finishes (setupkvm_room hroom₁')).mono fun r m₂ hr => ?_
    obtain ⟨⟨d, rfl, hfresh, hroom₂⟩, hfree₂⟩ := hr
    rw [add_zero, add_zero] at hfree₂
    exact ⟨d, m₂, rfl, hfresh, hroom₂, hfree₂, rfl⟩
  · rintro _ _ ⟨d, m₂, rfl, hfresh, hroom₂, hfree₂, rfl⟩
    refine .bind (onMem_never (Q := fun r t => ∃ w m₃, r = some w ∧ Room (k + 1) m₃ ∧ free m₃ + {w} = free m₂ ∧
      t = { Allocated (beforeInit m d₀ apstacks) 0 (some v) .embryo m₃ with initproc := some 0 }) ?_) ?_
    · refine ((kalloc_balances 0).finishes (kalloc_room hroom₂)).mono fun r m₃ hr => ?_
      obtain ⟨⟨w, rfl, hroom₃⟩, hfree₃⟩ := hr
      exact ⟨w, m₃, rfl, hroom₃, by simpa using hfree₃, rfl⟩
    · rintro _ _ ⟨w, m₃, rfl, hroom₃, hfree₃, rfl⟩
      refine .bind (onMem_never (Q := fun r t => ∃ m₄, Room k m₄ ∧ free m₄ + r.1.pages = free m₃ + ({w} + d.pages) ∧
        r.1.lookup 0 = some ⟨w, true, true⟩ ∧ (∀ b, 1 ≤ b → b < kernbase → r.1.lookup b = none) ∧
        t = { Allocated (beforeInit m d₀ apstacks) 0 (some v) .embryo m₄ with initproc := some 0 }) ?_) ?_
      · refine (inituvm_room hfresh hroom₃).mono fun r m₄ hr => ?_
        obtain ⟨hroom₄, hfree₄, hzero, hnone⟩ := hr
        exact ⟨m₄, hroom₄, hfree₄, hzero, hnone, rfl⟩
      · rintro ⟨d', ok⟩ _ ⟨m₄, hroom₄, hfree₄, hzero, hnone, rfl⟩
        refine .get ⟨m₄, v, d', ?_, hroom₄, ?_, ⟨_, hzero⟩, hnone⟩
        · simp [Allocated, afterInit, initTask, beforeInit, System.zero]
        · have hfree : free m₁ + {v} = free m := hfree₁
          rw [← hfree, ← hfree₂, ← hfree₃, add_left_comm, hfree₄]
          abel

section afterInit

theorem afterInit_proc (q : Slot) :
    ((afterInit m d₀ apstacks (initTask v d)).proc q).ofile = fun _ => none := by
  by_cases hq : q = 0
  · subst hq
    rfl
  · simp [afterInit, hq, System.zero]

theorem places_afterInit : places (afterInit m d₀ apstacks (initTask v d)) =
    free m + ({v} + d.pages) + (d₀.pages + (apstacks.map stackPage).sum) := by
  have hsum := sum_pages_update System.zero.proc 0 (initTask v d)
  have hzero : ∑ q, (System.zero.proc q).pages = 0 := Finset.sum_eq_zero fun _ _ => rfl
  have hunused : (System.zero.proc 0).pages = 0 := rfl
  rw [hzero, hunused, add_zero, zero_add] at hsum
  have hfiles : filePages { System.zero.files with kmem := m } = free m := add_zero _
  change filePages { System.zero.files with kmem := m } + ∑ q, (Function.update System.zero.proc 0 (initTask v d) q).pages + _ = _
  rw [hsum, hfiles]
  rfl

theorem sound_afterInit (hnodup : (places (afterInit m d₀ apstacks (initTask v d))).Nodup) :
    Sound (afterInit m d₀ apstacks (initTask v d)) := by
  have hrefs : refs (afterInit m d₀ apstacks (initTask v d)).proc = 0 := by
    funext f
    refine Finset.sum_eq_zero fun q _ => Finset.sum_eq_zero fun fd _ => ?_
    rw [afterInit_proc]
    rfl
  refine ⟨?_, fun q => ?_, fun q _ fd => by rw [afterInit_proc], hnodup⟩
  · rw [hrefs]
    refine ⟨fun f => rfl, fun f _ => rfl, List.nodup_nil, fun p w => iff_of_false ?_ ?_, fun f g p w hf => ?_,
      fun q hq => ?_, rfl⟩
    · rintro ⟨q, hq, -⟩
      cases hq
    · rintro ⟨f, hf, -⟩
      cases hf
    · cases hf.1
    · cases hq
  · by_cases hq : q = 0
    · subst hq
      exact (by decide : (4096 : Word) < 0x80000000)
    · simp [afterInit, hq, System.zero]

end afterInit

theorem range'_append (L : Layout) : bootPages L =
    (List.range' L.endPg (1024 - L.endPg) : List Page) + (List.range' 1024 (phystop - 1024) : List Page) := by
  have hend := L.end_le
  have hphys : phystop = 57344 := rfl
  have happend : List.range' L.endPg (1024 - L.endPg) ++ List.range' (L.endPg + (1024 - L.endPg)) (phystop - 1024) = _ :=
    List.range'_append_1
  rw [show L.endPg + (1024 - L.endPg) = 1024 by omega,
    show 1024 - L.endPg + (phystop - 1024) = phystop - L.endPg by omega] at happend
  rw [bootPages, ← happend, Multiset.coe_add]

theorem boot_booted (aps : Fin ncpu) : Finishes Impossible (boot L aps) System.zero fun _ t => Booted L t := by
  have hend := L.end_le
  have hphys : phystop = 57344 := rfl
  have haps : aps.val < 8 := aps.isLt
  have hlow : ∀ v ∈ List.range' L.endPg (1024 - L.endPg), Valid L v := by
    intro v hv
    have := List.mem_range'_1.mp hv
    exact ⟨this.1, by omega⟩
  have hhigh : ∀ v ∈ List.range' 1024 (phystop - 1024), Valid L v := by
    intro v hv
    have := List.mem_range'_1.mp hv
    exact ⟨by omega, by omega⟩
  refine .bind (onMem_never (Q := fun _ t => ∃ m₁, Room 72 m₁ ∧
    free m₁ = (List.range' L.endPg (1024 - L.endPg) : List Page) ∧
    t = { System.zero with files := { System.zero.files with kmem := m₁ } }) ?_) ?_
  · refine (freerange_valid (k := 0) hlow ⟨le_rfl, rfl⟩).mono fun _ m₁ h => ⟨m₁, ⟨?_, h.2.whole⟩, ?_, rfl⟩
    · have := h.2.enough
      rw [List.length_range'] at this
      omega
    · rw [h.1]
      exact zero_add _
  rintro _ _ ⟨m₁, hroom₁, hfree₁, rfl⟩
  refine .bind (onMem_never (Q := fun r t => ∃ d m₂, r = some d ∧ Room 7 m₂ ∧ free m₂ + d.pages = free m₁ ∧
    t = { System.zero with files := { System.zero.files with kmem := m₂ } }) ?_) ?_
  · refine ((setupkvm_balances (i := 0)).finishes (setupkvm_room (k := 7) hroom₁)).mono fun r m₂ hr => ?_
    obtain ⟨⟨d, rfl, -, hroom₂⟩, hfree₂⟩ := hr
    rw [add_zero, add_zero] at hfree₂
    exact ⟨d, m₂, rfl, hroom₂, hfree₂, rfl⟩
  rintro _ _ ⟨d, m₂, rfl, hroom₂, hfree₂, rfl⟩
  refine .modify (.bind (onMem_never (Q := fun r t => ∃ m₃, Room 0 m₃ ∧
    free m₃ + (r.map stackPage).sum = free m₂ ∧ t = beforeInit m₃ d []) ?_) ?_)
  · have hroom₂' : Room (aps.val + 0) m₂ := ⟨by have := hroom₂.enough; omega, hroom₂.whole⟩
    exact (startothers_room hroom₂').mono fun r m₃ h => ⟨m₃, h.1, h.2, rfl⟩
  rintro apstacks _ ⟨m₃, hroom₃, hfree₃, rfl⟩
  refine .modify (.bind (onMem_never (Q := fun _ t => ∃ m₄, Room (56000 + 68) m₄ ∧
    free m₄ = free m₃ + (List.range' 1024 (phystop - 1024) : List Page) ∧ t = beforeInit m₄ d apstacks) ?_) ?_)
  · refine (freerange_valid hhigh hroom₃).mono fun _ m₄ h => ⟨m₄, ⟨?_, h.2.whole⟩, h.1, rfl⟩
    have := h.2.enough
    rw [List.length_range'] at this
    simp only [phystop] at this
    omega
  rintro _ _ ⟨m₄, hroom₄, hfree₄, rfl⟩
  refine (userinit_room hroom₄).mono fun _ t ht => ?_
  obtain ⟨m₅, v, d', rfl, hroom₅, hfree₅, hzero, hnone⟩ := ht
  have hpages : places (afterInit m₅ d apstacks (initTask v d')) = bootPages L := by
    rw [places_afterInit, hfree₅, hfree₄, range'_append, ← hfree₁, ← hfree₂, ← hfree₃]
    abel
  refine ⟨sound_afterInit (by rw [hpages]; exact bootPages_nodup), rfl, rfl, hpages, hroom₅, ?_, rfl, d', rfl, hzero, hnone⟩
  exact ⟨(nomatch ·), (nomatch ·), (nomatch ·)⟩

theorem exists_boot (L : Layout) (aps : Fin ncpu) : ∃ s, boot L aps System.zero = .ok ((), s) ∧ Booted L s := by
  obtain ⟨_, s, hboot, hbooted⟩ := (boot_booted aps).exists_ok fun _ => id
  exact ⟨s, hboot, hbooted⟩

theorem booted_of_boot {aps : Fin ncpu} (h : boot L aps System.zero = .ok ((), s)) : Booted L s :=
  (boot_booted aps).of_ok h

def smallKernel : Layout := ⟨264, 277, by decide, by decide, by decide⟩

theorem Booted.always_sound (h : Booted L s) (hrun : Run (Step L) s es t) :
    Run.Always Sound es t :=
  hrun.always_invariant (C := fun _ _ => True)
    (fun _ c _ hstep _ hs => ((Call.run_finishes hs hstep.1 c.2).of_ok hstep.2).sound) (fun _ _ => trivial) h.sound

end Xv6.Vm
