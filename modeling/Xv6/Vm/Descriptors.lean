import Xv6.Vm.Boot

namespace Xv6.Vm

open Lib Prog
open Fs (nofile nfile)

def System.slots (s : System) (f : Fin nfile) : Finset (Slot × Fin nofile) :=
  Finset.univ.filter fun x => (s.proc x.1).ofile x.2 = some f

structure Accounted (s : System) : Prop where
  ref : ∀ f, (s.files.file f).ref = (s.slots f).card
  pipes : ∀ p w, (∃ q ∈ s.files.pipes, q.page = p ∧ q.isOpen w) ↔
    ∃ f, 0 < (s.files.file f).ref ∧ (s.files.file f).IsEnd p w

def Quiet (L : Layout) (s : System) : Prop :=
  ∀ p c e, (s.proc p).Active → Call.run L p c s = .error e → Allowed e

theorem card_slots (s : System) (f : Fin nfile) : (s.slots f).card = refs s.proc f := by
  rw [System.slots, Finset.card_filter, Fintype.sum_prod_type]
  rfl

theorem Sound.accounted (h : Sound s) : Accounted s := by
  refine ⟨fun f => ?_, fun p w => (h.books.ends p w).trans ⟨?_, ?_⟩⟩
  · rw [card_slots]
    exact h.books.ref f
  · rintro ⟨f, hf⟩
    refine ⟨f, ?_, hf⟩
    rw [h.books.ref]
    refine Int.natCast_pos.mpr (Nat.pos_of_ne_zero fun h0 => ?_)
    have htype := hf.1
    rw [h.books.idle f h0] at htype
    cases htype
  · rintro ⟨f, -, hf⟩
    exact ⟨f, hf⟩

theorem Sound.quiet (h : Sound s) : Quiet L s :=
  fun _ c _ hp he => (Call.run_finishes h hp c).of_error he

theorem fdalloc_eq
    (h : (List.finRange nofile).find? (fun fd => (s.proc p).ofile fd = none) = some fd) :
    fdalloc p f s = .ok (some fd, s.setOfile p fd (some f)) := by
  have hget : (MonadState.get : S System) s = .ok (s, s) := rfl
  refine (bind_ok hget).trans ?_
  rw [h]
  rfl

theorem pipe_booted (h : Booted L s) : ∃ t, Step L s (0, .pipe true) t := by
  obtain ⟨v, rest, hlist⟩ := List.exists_cons_of_length_pos (Nat.lt_of_lt_of_le (by decide) h.room.enough)
  have hkmem : s.files.kmem = ⟨v :: rest, false⟩ := by rw [← hlist, ← h.room.whole]
  obtain ⟨fs, hpipe⟩ : ∃ fs, pipealloc L s.files = .ok (some (0, 1), fs) := by
    rw [h.files, hkmem]
    exact ⟨_, rfl⟩
  have hfiles : onFiles (pipealloc L) s = .ok (some (0, 1), { s with files := fs }) := by
    rw [onFiles, hpipe]
  have hfd0 : fdalloc 0 0 { s with files := fs } = .ok (some 0, _) := fdalloc_eq (by rw [h.ofile]; rfl)
  have hfd1 : fdalloc 0 1 (System.setOfile { s with files := fs } 0 0 (some 0)) = .ok (some 1, _) :=
    fdalloc_eq (by simp only [System.setOfile, Function.update_self, h.ofile]; rfl)
  have hcall : sysPipe L 0 true s = .ok (0, _) := (bind_ok hfiles).trans ((bind_ok hfd0).trans (bind_ok hfd1))
  have hrun : (sysPipe L 0 true >>= fun _ => pure ()) s = .ok ((), _) := bind_ok hcall
  exact ⟨_, h.active, hrun⟩

theorem files_accounted (L : Layout) (aps : Fin ncpu) (s₀ u : System) (es : List (System × Slot × Call))
    (hboot : boot L aps System.zero = .ok ((), s₀)) (hrun : Run (Step L) s₀ es u) :
    Run.Always (fun s => Accounted s ∧ Quiet L s) es u := by
  have hsound := (booted_of_boot hboot).always_sound hrun
  exact ⟨fun e he => ⟨(hsound.1 e he).accounted, (hsound.1 e he).quiet⟩, hsound.2.accounted, hsound.2.quiet⟩

theorem files_accounted_pipe : ∃ s₀ u, boot smallKernel 1 System.zero = .ok ((), s₀) ∧
    Run (Step smallKernel) s₀ [(s₀, 0, .pipe true)] u ∧
    Run.Always (fun s => Accounted s ∧ Quiet smallKernel s) [(s₀, (0 : Slot), Call.pipe true)] u := by
  obtain ⟨s₀, hboot, hbooted⟩ := exists_boot smallKernel 1
  obtain ⟨u, hpipe⟩ := pipe_booted hbooted
  have hrun : Run (Step smallKernel) s₀ [(s₀, 0, .pipe true)] u := .single hpipe
  exact ⟨s₀, u, hboot, hrun, files_accounted smallKernel 1 s₀ u _ hboot hrun⟩

end Xv6.Vm
