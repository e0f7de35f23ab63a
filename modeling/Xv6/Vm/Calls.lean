import Xv6.Vm.Books
import Xv6.Vm.Exec
import Mathlib.Tactic.Abel

namespace Xv6.Vm

open Function Lib Prog
open Fs (FileType nofile nfile)

def Task.refs (t : Task) (f : Fin nfile) : Nat := ∑ fd, if t.ofile fd = some f then 1 else 0

def refs (proc : Slot → Task) (f : Fin nfile) : Nat := ∑ p, (proc p).refs f

def stackPage (k : Option Page) : Multiset Page := k.elim 0 ({·})

def Task.pages (t : Task) : Multiset Page :=
  if t.state = .unused then 0 else stackPage t.kstack + pagesOf t.pgdir

/-- The pages in all places where a page can be: on the free list, in a pipe, in a process, in the
kernel's page table and as a stack of another processor. -/
def places (s : System) : Multiset Page :=
  filePages s.files + ∑ p, (s.proc p).pages + (pagesOf s.kpgdir + (s.apstacks.map stackPage).sum)

structure Sound (s : System) : Prop where
  books : Books (refs s.proc) (filePages s.files) s.files
  size : ∀ p, (s.proc p).sz < 0x80000000
  idle : ∀ p, (s.proc p).state = .unused ∨ (s.proc p).state = .zombie → ∀ fd, (s.proc p).ofile fd = none
  nodup : (places s).Nodup

/-- What a call leaves behind.  Only one that is not `tame` may lose a page. -/
structure Outcome (tame : Prop) (s t : System) : Prop where
  sound : Sound t
  kept : tame → places t = places s

variable {s t u : System} {p : Slot} {fd : Fin nofile} {f : Fin nfile} {proc : Slot → Task} {c : Prop}
  {α : Type}

theorem refs_update (proc : Slot → Task) (p : Slot) (t : Task) (f : Fin nfile) :
    refs (update proc p t) f + (proc p).refs f = refs proc f + t.refs f := by
  unfold refs
  exact sum_update_add (fun _ (t : Task) => t.refs f) proc p t

theorem Task.refs_update (t : Task) (fd : Fin nofile) (y : Option (Fin nfile)) (f : Fin nfile) :
    ({ t with ofile := update t.ofile fd y } : Task).refs f + (if t.ofile fd = some f then 1 else 0) =
      t.refs f + if y = some f then 1 else 0 := by
  unfold Task.refs
  exact sum_update_add (fun _ (y : Option (Fin nfile)) => if y = some f then 1 else 0) t.ofile fd y

theorem refs_ne_zero (h : (proc p).ofile fd = some f) : refs proc f ≠ 0 := by
  have htask : (proc p).refs f ≠ 0 := by
    intro h0
    have := (Finset.sum_eq_zero_iff.mp h0) fd (Finset.mem_univ fd)
    rw [if_pos h] at this
    cases this
  intro h0
  exact htask ((Finset.sum_eq_zero_iff.mp h0) p (Finset.mem_univ p))

def System.setOfile (s : System) (p : Slot) (fd : Fin nofile) (y : Option (Fin nfile)) : System :=
  { s with
    proc := update s.proc p { s.proc p with ofile := update (s.proc p).ofile fd y } }

theorem refs_setOfile (s : System) (p : Slot) (fd : Fin nofile) (y : Option (Fin nfile)) (f : Fin nfile) :
    refs (s.setOfile p fd y).proc f + (if (s.proc p).ofile fd = some f then 1 else 0) =
      refs s.proc f + if y = some f then 1 else 0 := by
  have htable := refs_update s.proc p { s.proc p with ofile := update (s.proc p).ofile fd y } f
  have htask := (s.proc p).refs_update fd y f
  dsimp only [System.setOfile] at htable ⊢
  omega

theorem refs_setOfile_some (h : (s.proc p).ofile fd = none) :
    refs (s.setOfile p fd (some f)).proc = refs s.proc + Pi.single f 1 := by
  funext g
  have hset := refs_setOfile s p fd (some f) g
  simpa [h, Pi.single_apply, eq_comm (a := f)] using hset

theorem refs_setOfile_none (h : (s.proc p).ofile fd = some f) :
    refs s.proc = refs (s.setOfile p fd none).proc + Pi.single f 1 := by
  funext g
  have hset := refs_setOfile s p fd none g
  simpa [h, Pi.single_apply, eq_comm (a := f)] using hset.symm

theorem Outcome.of_same (hs : Sound s) (hbooks : Books (refs t.proc) (filePages s.files) t.files)
    (hkpgdir : t.kpgdir = s.kpgdir) (hstacks : t.apstacks = s.apstacks)
    (hpages : ∀ q, (t.proc q).pages = (s.proc q).pages) (hsize : ∀ q, (t.proc q).sz = (s.proc q).sz)
    (hidle : ∀ q, (t.proc q).state = .unused ∨ (t.proc q).state = .zombie → ∀ fd, (t.proc q).ofile fd = none) :
    Outcome c s t := by
  have hplaces : places t = places s := by
    rw [places, places, hkpgdir, hstacks, hbooks.pages]
    simp only [hpages]
  refine ⟨⟨?_, fun q => ?_, hidle, ?_⟩, fun _ => hplaces⟩
  · rw [hbooks.pages]
    exact hbooks
  · rw [hsize]
    exact hs.size q
  · rw [hplaces]
    exact hs.nodup

def OnlyFiles (p : Slot) (s t : System) : Prop :=
  ∃ files ofile, t = { s with
    files := files
    proc := update s.proc p { s.proc p with ofile := ofile } }

namespace OnlyFiles

theorem refl : OnlyFiles p s s := ⟨s.files, (s.proc p).ofile, by simp⟩

theorem files (h : OnlyFiles p s t) (fs : Files) : OnlyFiles p s { t with files := fs } := by
  obtain ⟨files, ofile, rfl⟩ := h
  exact ⟨fs, ofile, rfl⟩

theorem setOfile (h : OnlyFiles p s t) (fd : Fin nofile) (y : Option (Fin nfile)) :
    OnlyFiles p s (t.setOfile p fd y) := by
  obtain ⟨files, ofile, rfl⟩ := h
  exact ⟨files, update ofile fd y, by simp [System.setOfile]⟩

end OnlyFiles

structure During (p : Slot) (s : System) (n : Fin nfile → Nat) (t : System) : Prop where
  only : OnlyFiles p s t
  books : Books (refs t.proc + n) (filePages s.files) t.files

namespace During

variable {n : Fin nfile → Nat}

theorem start (h : Sound s) : During p s 0 s := ⟨.refl, by simpa using h.books⟩

theorem outcome (h : During p s 0 t) (hs : Sound s) (hp : (s.proc p).Active) : Outcome c s t := by
  have hbooks := h.books
  rw [add_zero] at hbooks
  obtain ⟨files, ofile, rfl⟩ := h.only
  refine .of_same hs hbooks rfl rfl (fun q => ?_) (fun q => ?_) fun q hq => ?_
  · by_cases hqp : q = p
    · subst hqp
      simp [Task.pages]
    · simp [hqp]
  · by_cases hqp : q = p
    · subst hqp
      simp
    · simp [hqp]
  · by_cases hqp : q = p
    · subst hqp
      simp only [update_self] at hq
      exact absurd hq (by simp [hp.1, hp.2.2])
    · simp only [update_of_ne hqp] at hq ⊢
      exact hs.idle q hq

theorem give (h : During p s (n + Pi.single f 1) t) (hfd : (t.proc p).ofile fd = none) :
    During p s n (t.setOfile p fd (some f)) := by
  refine ⟨h.only.setOfile fd (some f), ?_⟩
  rw [refs_setOfile_some hfd, add_right_comm, add_assoc]
  exact h.books

theorem take (h : During p s n t) (hfd : (t.proc p).ofile fd = some f) :
    During p s (n + Pi.single f 1) (t.setOfile p fd none) := by
  refine ⟨h.only.setOfile fd none, ?_⟩
  have hbooks := h.books
  rwa [refs_setOfile_none hfd, add_right_comm, add_assoc] at hbooks

end During

theorem onFiles_finishes {x : F α} {Q : α → System → Prop}
    (h : Finishes Allowed x s.files fun a fs => Q a { s with files := fs }) :
    Finishes Allowed (onFiles x) s Q := by
  unfold Finishes onFiles at *
  cases hx : x s.files with
  | error e => rwa [hx] at h
  | ok r => rwa [hx] at h

theorem setOfile_bind {y : Option (Fin nfile)} {g : Unit → S α} {Q : α → System → Prop}
    (h : Finishes Allowed (g ()) (s.setOfile p fd y) Q) : Finishes Allowed (setOfile p fd y >>= g) s Q := h

theorem fdalloc_finishes : Finishes Allowed (fdalloc p f) s fun r t => match r with
    | none => t = s
    | some fd => (s.proc p).ofile fd = none ∧ t = s.setOfile p fd (some f) := by
  refine .get ?_
  cases hfind : (List.finRange nofile).find? fun fd => (s.proc p).ofile fd = none with
  | none => exact .pure rfl
  | some fd =>
    have hnone : (s.proc p).ofile fd = none := by simpa using List.find?_some hfind
    exact setOfile_bind (.pure ⟨hnone, rfl⟩)

theorem argfd_finishes {fd : Int} : Finishes Allowed (argfd p fd) s fun r t =>
    t = s ∧ ∀ x ∈ r, (s.proc p).ofile x.1 = some x.2 := by
  refine .get ?_
  split
  case isTrue h =>
    refine .pure ⟨rfl, fun x hx => ?_⟩
    obtain ⟨f, hf, rfl⟩ := Option.map_eq_some_iff.mp hx
    exact hf
  case isFalse => exact .pure ⟨rfl, fun x hx => nomatch hx⟩

theorem During.fileclose {n : Fin nfile → Nat} (h : During p s (n + Pi.single f 1) t) :
    Finishes Allowed (onFiles (fileclose L f)) t fun _ u => During p s n u := by
  have hbooks := h.books
  rw [← add_assoc] at hbooks
  exact onFiles_finishes ((fileclose_finishes hbooks).mono fun _ fs hfs => ⟨h.only.files fs, hfs⟩)

theorem filealloc_during (h : During p s 0 t) :
    Finishes Allowed (onFiles filealloc) t fun r u => match r with
      | none => During p s 0 u
      | some f => During p s (0 + Pi.single f 1) u ∧ (u.files.file f).type = .fdNone := by
  refine onFiles_finishes ((filealloc_finishes h.books).mono fun r fs hfs => ?_)
  cases r with
  | none => exact ⟨h.only.files fs, hfs⟩
  | some f =>
    obtain ⟨-, hbooks, htype, -⟩ := hfs
    rw [add_assoc] at hbooks
    exact ⟨⟨h.only.files fs, hbooks⟩, htype⟩

theorem pipealloc_during (h : During p s 0 t) (hnodup : (filePages s.files).Nodup) :
    Finishes Allowed (onFiles (pipealloc L)) t fun r u => match r with
      | none => During p s 0 u
      | some (rf, wf) => During p s (Pi.single rf 1 + Pi.single wf 1) u := by
  refine onFiles_finishes ((pipealloc_finishes h.books hnodup).mono fun r fs hfs => ?_)
  cases r with
  | none => exact ⟨h.only.files fs, hfs⟩
  | some r =>
    obtain ⟨rf, wf⟩ := r
    dsimp only at hfs
    rw [add_zero, add_assoc] at hfs
    exact ⟨h.only.files fs, hfs⟩

section calls

variable (hs : Sound s) (hp : (s.proc p).Active)
include hs hp

theorem sysDup_finishes {fd : Int} : Finishes Allowed (sysDup p fd) s fun _ t => Outcome c s t := by
  refine argfd_finishes.bind fun r t ht => ?_
  obtain ⟨rfl, hr⟩ := ht
  have hstart := During.start (p := p) hs
  cases r with
  | none => exact .pure (hstart.outcome hs hp)
  | some r =>
    obtain ⟨fd, f⟩ := r
    refine fdalloc_finishes.bind fun r u hu => ?_
    cases r with
    | none =>
      subst hu
      exact .pure (hstart.outcome hs hp)
    | some fd' =>
      obtain ⟨hnone, rfl⟩ := hu
      have hdup := filedup_finishes hs.books (refs_ne_zero (hr _ rfl))
      refine .bind (onFiles_finishes (hdup.mono fun _ fs hfs => ?_)) fun _ u hu => .pure hu
      refine During.outcome ⟨(hstart.only.setOfile fd' (some f)).files fs, ?_⟩ hs hp
      rw [add_zero]
      exact (refs_setOfile_some hnone).symm ▸ hfs

theorem sysClose_finishes {fd : Int} : Finishes Allowed (sysClose L p fd) s fun _ t => Outcome c s t := by
  refine argfd_finishes.bind fun r t ht => ?_
  obtain ⟨rfl, hr⟩ := ht
  have hstart := During.start (p := p) hs
  cases r with
  | none => exact .pure (hstart.outcome hs hp)
  | some r =>
    obtain ⟨fd, f⟩ := r
    have htake := hstart.take (hr _ rfl)
    refine setOfile_bind ?_
    exact htake.fileclose.bind fun _ u hu => .pure (hu.outcome hs hp)

theorem sysOpen_finishes {found readable writable : Bool} :
    Finishes Allowed (sysOpen L p found readable writable) s fun _ t => Outcome c s t := by
  have hstart := During.start (p := p) hs
  unfold sysOpen
  split
  case isTrue => exact .pure (hstart.outcome hs hp)
  case isFalse =>
    refine (filealloc_during hstart).bind fun r t ht => ?_
    cases r with
    | none => exact .pure (ht.outcome hs hp)
    | some f =>
      obtain ⟨hduring, htype⟩ := ht
      refine fdalloc_finishes.bind fun r u hu => ?_
      cases r with
      | none =>
        subst hu
        exact hduring.fileclose.bind fun _ v hv => .pure (hv.outcome hs hp)
      | some fd =>
        obtain ⟨hnone, rfl⟩ := hu
        have hgive := hduring.give hnone
        have hne : refs (t.setOfile p fd (some f)).proc f ≠ 0 :=
          refs_ne_zero (show ((t.setOfile p fd (some f)).proc p).ofile fd = some f by simp [System.setOfile])
        refine .get ?_
        refine .bind (onFiles_finishes ?_) fun _ v hv => .pure hv
        have hset := setFile_finishes (x := { t.files.file f with type := .fdInode, readable := readable, writable := writable })
          hgive.books (f := f) (by simpa using hne) rfl htype (nomatch ·)
        exact hset.mono fun _ fs hfs => During.outcome ⟨hgive.only.files fs, hfs⟩ hs hp

theorem sysPipe_finishes {valid : Bool} :
    Finishes Allowed (sysPipe L p valid) s fun _ t => Outcome c s t := by
  have hstart := During.start (p := p) hs
  unfold sysPipe
  split
  case isTrue => exact .pure (hstart.outcome hs hp)
  case isFalse =>
    have hnodup : (filePages s.files).Nodup := by
      have hall := hs.nodup
      rw [places, add_assoc] at hall
      exact (Multiset.nodup_add.mp hall).1
    refine (pipealloc_during hstart hnodup).bind fun r t ht => ?_
    cases r with
    | none => exact .pure (ht.outcome hs hp)
    | some r =>
      obtain ⟨rf, wf⟩ := r
      refine fdalloc_finishes.bind fun r u hu => ?_
      have hduring : During p s (Pi.single wf 1 + Pi.single rf 1) t := by rwa [add_comm]
      cases r with
      | none =>
        subst hu
        refine hduring.fileclose.bind fun _ v hv => ?_
        rw [← zero_add (Pi.single wf 1)] at hv
        exact hv.fileclose.bind fun _ w hw => .pure (hw.outcome hs hp)
      | some fd0 =>
        obtain ⟨hnone, rfl⟩ := hu
        have hgive := hduring.give hnone
        refine fdalloc_finishes.bind fun r u hu => ?_
        cases r with
        | none =>
          subst hu
          have hfd : ((t.setOfile p fd0 (some rf)).proc p).ofile fd0 = some rf := by simp [System.setOfile]
          have htake := hgive.take hfd
          refine setOfile_bind ?_
          refine htake.fileclose.bind fun _ v hv => ?_
          rw [← zero_add (Pi.single wf 1)] at hv
          exact hv.fileclose.bind fun _ w hw => .pure (hw.outcome hs hp)
        | some fd1 =>
          obtain ⟨hnone', rfl⟩ := hu
          rw [← zero_add (Pi.single wf 1)] at hgive
          exact .pure ((hgive.give hnone').outcome hs hp)

end calls

theorem refs_congr {proc' : Slot → Task} (h : ∀ q, (proc q).ofile = (proc' q).ofile) : refs proc = refs proc' := by
  funext f
  refine Finset.sum_congr rfl fun q _ => ?_
  rw [Task.refs, Task.refs, h]

theorem refs_update_of_ofile {x : Task} (h : x.ofile = (proc p).ofile) : refs (update proc p x) = refs proc := by
  refine refs_congr fun q => ?_
  by_cases hqp : q = p
  · subst hqp
    simp [h]
  · simp [hqp]

theorem sum_pages_update (proc : Slot → Task) (p : Slot) (x : Task) :
    ∑ q, (update proc p x q).pages + (proc p).pages = ∑ q, (proc q).pages + x.pages :=
  sum_update_add (fun _ (x : Task) => x.pages) proc p x

theorem places_update (s : System) (p : Slot) (fs : Files) (x : Task) (m : Word) :
    places { s with files := fs, proc := update s.proc p x, nextpid := m } + (s.proc p).pages =
      filePages fs + x.pages + (∑ q, (s.proc q).pages + (pagesOf s.kpgdir + (s.apstacks.map stackPage).sum)) := by
  have hsum := sum_pages_update s.proc p x
  unfold places
  dsimp only
  rw [add_right_comm, add_assoc (filePages fs), hsum]
  abel

theorem Outcome.of_update {fs : Files} {x : Task} {m : Word} (hs : Sound s)
    (hbooks : Books (refs (update s.proc p x)) (filePages fs) fs) (hsize : x.sz < 0x80000000)
    (hidle : x.state = .unused ∨ x.state = .zombie → ∀ fd, x.ofile fd = none)
    (hle : filePages fs + x.pages ≤ filePages s.files + (s.proc p).pages)
    (heq : c → filePages fs + x.pages = filePages s.files + (s.proc p).pages) :
    Outcome c s { s with files := fs, proc := update s.proc p x, nextpid := m } := by
  have hnew := places_update s p fs x m
  have hold := places_update s p s.files (s.proc p) s.nextpid
  rw [update_eq_self] at hold
  refine ⟨⟨hbooks, fun q => ?_, fun q hq => ?_, ?_⟩, fun htame => ?_⟩
  · by_cases hqp : q = p
    · subst hqp
      simpa using hsize
    · simpa [hqp] using hs.size q
  · by_cases hqp : q = p
    · subst hqp
      simp only [update_self] at hq ⊢
      exact hidle hq
    · simp only [update_of_ne hqp] at hq ⊢
      exact hs.idle q hq
  · refine Multiset.nodup_of_le ?_ hs.nodup
    have hadd := hnew.trans_le (add_le_add_left hle _)
    rw [← hold] at hadd
    exact le_of_add_le_add_right hadd
  · have hadd := hnew
    rw [heq htame, ← hold] at hadd
    exact add_right_cancel hadd

theorem Books.setKmem {n : Fin nfile → Nat} {P : Multiset Page} {fs : Files} (h : Books n P fs) (k : Kmem) :
    Books n (filePages { fs with kmem := k }) { fs with kmem := k } :=
  ⟨h.ref, h.idle, h.distinct, h.ends, h.alone, h.used, rfl⟩

theorem filePages_kmem (fs : Files) (k : Kmem) :
    filePages { fs with kmem := k } = free k + (fs.pipes.map Pipe.page : List Page) := rfl

theorem Outcome.of_task {k : Kmem} {x : Task} {m : Word} (hs : Sound s) (hofile : x.ofile = (s.proc p).ofile)
    (hsize : x.sz < 0x80000000) (hidle : x.state = .unused ∨ x.state = .zombie → ∀ fd, x.ofile fd = none)
    (hle : free k + x.pages ≤ free s.files.kmem + (s.proc p).pages)
    (heq : c → free k + x.pages = free s.files.kmem + (s.proc p).pages) :
    Outcome c s { s with
      files := { s.files with kmem := k }
      proc := update s.proc p x
      nextpid := m } := by
  have hbooks := hs.books.setKmem k
  rw [← refs_update_of_ofile hofile] at hbooks
  refine .of_update hs hbooks hsize hidle ?_ fun hc => ?_
  · rw [filePages_kmem, filePages, add_right_comm, add_right_comm _ _ (s.proc p).pages]
    exact add_le_add_left hle _
  · rw [filePages_kmem, filePages, add_right_comm, heq hc, add_right_comm]

theorem onMem_finishes {x : K α} {Q : α → System → Prop}
    (h : ∀ a k, x s.files.kmem = .ok (a, k) → Q a { s with files := { s.files with kmem := k } }) :
    Finishes Allowed (onFiles (onKmem x)) s Q :=
  onFiles_finishes (onKmem_finishes h)

theorem onMem_bind {β : Type} {x : K α} {g : α → S β} {Q : β → System → Prop}
    (h : ∀ a k, x s.files.kmem = .ok (a, k) →
      Finishes Allowed (g a) { s with files := { s.files with kmem := k } } Q) :
    Finishes Allowed (onFiles (onKmem x) >>= g) s Q :=
  (onMem_finishes h).bind fun _ _ ht => ht

theorem withPgdir_bind {β : Type} {d : Option Pgdir} {e : Stop} {x : Pgdir → K α} {g : α → S β}
    {Q : β → System → Prop} (h : ∀ d', d = some d' → ∀ a k, x d' s.files.kmem = .ok (a, k) →
      Finishes Allowed (g a) { s with files := { s.files with kmem := k } } Q) :
    Finishes Allowed (withPgdir d e x >>= g) s Q := by
  cases d with
  | none => exact .fail rfl (Allowed.mem e)
  | some d => exact onMem_bind (h d rfl)

theorem Task.pages_of_ne_unused {t : Task} (h : t.state ≠ .unused) :
    t.pages = stackPage t.kstack + pagesOf t.pgdir := if_neg h

theorem Task.pages_of_unused {t : Task} (h : t.state = .unused) : t.pages = 0 := if_pos h

section calls

variable (hs : Sound s) (hp : (s.proc p).Active)
include hs hp

theorem Outcome.of_pgdir {d : Pgdir} {k : Kmem} {sz : Word} (hsz : sz < 0x80000000)
    (hle : free k + d.pages ≤ free s.files.kmem + pagesOf (s.proc p).pgdir)
    (heq : c → free k + d.pages = free s.files.kmem + pagesOf (s.proc p).pgdir) :
    Outcome c s { s with
      files := { s.files with kmem := k }
      proc := update s.proc p { s.proc p with pgdir := some d, sz := sz } } := by
  have hnew : free k + ({ s.proc p with pgdir := some d, sz := sz } : Task).pages =
      free k + d.pages + stackPage (s.proc p).kstack := by
    rw [Task.pages_of_ne_unused (by exact hp.1)]
    change _ + (_ + d.pages) = _
    abel
  have hold : free s.files.kmem + (s.proc p).pages =
      free s.files.kmem + pagesOf (s.proc p).pgdir + stackPage (s.proc p).kstack := by
    rw [Task.pages_of_ne_unused hp.1]
    abel
  refine Outcome.of_task hs rfl hsz (fun hq => absurd hq (by simp [hp.1, hp.2.2])) ?_ fun hc => ?_
  · rw [hnew, hold]
    exact add_le_add_left hle _
  · rw [hnew, hold, heq hc]

omit hp in
theorem Outcome.of_kmem {k : Kmem} (hle : free k ≤ free s.files.kmem)
    (heq : c → free k = free s.files.kmem) : Outcome c s { s with files := { s.files with kmem := k } } := by
  have hupdate := Outcome.of_task (c := c) (k := k) (x := s.proc 0) (m := s.nextpid) hs rfl (hs.size 0) (hs.idle 0)
  rw [update_eq_self] at hupdate
  exact hupdate (add_le_add_left hle _) fun hc => by rw [heq hc]

theorem growproc_finishes {n : Word} : Finishes Allowed (growproc L p n) s fun _ t => Outcome c s t := by
  have hsz := hs.size p
  refine .get ?_
  dsimp only
  split
  case isTrue =>
    refine withPgdir_bind fun d hd ⟨d', sz⟩ k hk => ?_
    have hkept : free k + d'.pages = free s.files.kmem + pagesOf (s.proc p).pgdir := by
      rw [hd]
      exact allocuvm_balances _ _ _ hk
    dsimp only
    split
    case isTrue => exact Outcome.of_pgdir hs hp hsz hkept.le fun _ => hkept
    case isFalse => exact Outcome.of_pgdir hs hp (allocuvm_bound hsz _ _ _ hk) hkept.le fun _ => hkept
  case isFalse =>
    split
    case isTrue =>
      refine withPgdir_bind fun d hd d' k hk => ?_
      have hkept : free k + d'.pages = free s.files.kmem + pagesOf (s.proc p).pgdir := by
        rw [hd]
        exact deallocuvm_balances (BitVec.le_of_lt hsz) _ _ _ hk
      dsimp only
      generalize hsz' : (if (s.proc p).sz ≤ (s.proc p).sz + n then (s.proc p).sz else (s.proc p).sz + n) = sz
      have hbound : sz < 0x80000000 := by
        rw [← hsz']
        split
        case isTrue => exact hsz
        case isFalse h =>
          rw [BitVec.not_le] at h
          exact BitVec.lt_trans h hsz
      split
      case isTrue => exact Outcome.of_pgdir hs hp hsz hkept.le fun _ => hkept
      case isFalse => exact Outcome.of_pgdir hs hp hbound hkept.le fun _ => hkept
    case isFalse => exact .pure ((During.start hs).outcome hs hp)

theorem sysSbrk_finishes {n : Word} : Finishes Allowed (sysSbrk L p n) s fun _ t => Outcome c s t := by
  have hgrow : Finishes Allowed (growproc L p n) s fun _ t => Outcome c s t := growproc_finishes hs hp
  refine .get (hgrow.bind fun r t ht => ?_)
  split
  case isTrue => exact .pure ht
  case isFalse => exact .pure ht

theorem exec_finishes {word : Word} {img : Option Image} {args : List Nat} :
    Finishes Allowed (exec L p word img args) s
      fun _ t => Outcome (∀ n ∈ args, n + 4 ≤ 33554432) s t := by
  have hrefl := (During.start (p := p) hs).outcome (c := ∀ n ∈ args, n + 4 ≤ 33554432) hs hp
  refine .get ?_
  dsimp only
  split
  case isTrue => exact .pure hrefl
  case isFalse =>
    cases img with
    | none => exact .pure hrefl
    | some img =>
      refine onMem_bind fun r k hk => ?_
      have hle : free k + pagesOf (r.map (·.1)) ≤ free s.files.kmem := by
        simpa using loadImage_bounded _ _ _ hk
      have heq (htame : ∀ n ∈ args, n + 4 ≤ 33554432) :
          free k + pagesOf (r.map (·.1)) = free s.files.kmem := by
        simpa using loadImage_balances htame _ _ _ hk
      cases r with
      | none =>
        refine .pure (Outcome.of_kmem hs ?_ fun htame => ?_)
        · simpa [pagesOf] using hle
        · simpa [pagesOf] using heq htame
      | some r =>
        obtain ⟨d, sz⟩ := r
        have hbound := loadImage_returns _ _ _ hk (d, sz) rfl
        refine .modify (withPgdir_bind fun d₀ hd₀ _ k' hk' => .pure ?_)
        have hfree : free k' = free k + d₀.pages := by simpa using freevm_balances (i := 0) _ _ _ hk'
        have hpgdir : pagesOf (s.proc p).pgdir = d₀.pages := by
          rw [hd₀]
          rfl
        change free k + d.pages ≤ _ at hle
        change _ → free k + d.pages = _ at heq
        refine Outcome.of_pgdir hs hp hbound ?_ fun htame => ?_
        · rw [hfree, hpgdir, add_right_comm]
          exact add_le_add_left hle _
        · rw [hfree, hpgdir, add_right_comm, heq htame]

omit hs hp in
theorem closeFiles_finishes {l : List (Fin nofile)} (h : During p s 0 t) :
    Finishes Allowed (closeFiles L p l) t fun _ u => During p s 0 u ∧
      ∀ fd, (fd ∈ l ∨ (t.proc p).ofile fd = none) → (u.proc p).ofile fd = none := by
  induction l generalizing t with
  | nil => exact .pure ⟨h, fun fd hfd => hfd.resolve_left List.not_mem_nil⟩
  | cons fd l ih =>
    refine .get ?_
    cases hfd : (t.proc p).ofile fd with
    | none =>
      refine (ih h).mono fun _ u hu => ⟨hu.1, fun fd' hfd' => hu.2 fd' ?_⟩
      rcases hfd' with hmem | hnone
      · rcases List.mem_cons.mp hmem with rfl | hmem
        · exact .inr hfd
        · exact .inl hmem
      · exact .inr hnone
    | some f =>
      have hbooks := h.books
      rw [add_zero, refs_setOfile_none hfd] at hbooks
      refine .bind (onFiles_finishes ((fileclose_finishes hbooks).mono fun _ fs hfs => ?_)) fun _ u hu => hu
      refine setOfile_bind ((ih ⟨(h.only.files fs).setOfile fd none, ?_⟩).mono fun _ u hu => ?_)
      · rw [add_zero]
        exact hfs
      · refine ⟨hu.1, fun fd' hfd' => hu.2 fd' ?_⟩
        by_cases heq : fd' = fd
        · subst heq
          exact .inr (by simp [System.setOfile])
        · rcases hfd' with hmem | hnone
          · exact .inl ((List.mem_cons.mp hmem).resolve_left heq)
          · exact .inr (by simpa [System.setOfile, heq] using hnone)

omit hs hp in
theorem Outcome.zombie {proc' : Slot → Task} (h : During p s 0 t) (hs : Sound s) (hp : (s.proc p).Active)
    (hnone : ∀ fd, (t.proc p).ofile fd = none)
    (hproc : ∀ q, ∃ parent, proc' q = { t.proc q with parent := parent }) :
    Outcome c s { t with proc := update proc' p { proc' p with state := .zombie } } := by
  have hbooks := h.books
  rw [add_zero] at hbooks
  have hrefs : refs (update proc' p { proc' p with state := .zombie }) = refs t.proc := by
    refine refs_congr fun q => ?_
    obtain ⟨parent, hq⟩ := hproc q
    by_cases hqp : q = p
    · subst hqp
      simp [hq]
    · simp [hqp, hq]
  obtain ⟨files, ofile, rfl⟩ := h.only
  refine .of_same hs (by rwa [hrefs]) rfl rfl (fun q => ?_) (fun q => ?_) fun q hq fd => ?_ <;>
    obtain ⟨parent, hproc⟩ := hproc q <;> by_cases hqp : q = p
  · subst hqp
    simp [Task.pages, hproc, hp.1]
  · simp [Task.pages, hproc, hqp]
  · subst hqp
    simp [hproc]
  · simp [hproc, hqp]
  · subst hqp
    simpa [hproc] using hnone fd
  · simp only [update_of_ne hqp, hproc] at hq ⊢
    exact hs.idle q hq fd

theorem exit_finishes : Finishes Allowed (exit L p) s fun _ t => Outcome c s t := by
  refine .get ?_
  split
  case isTrue => exact .throw ⟨by decide, by decide⟩
  case isFalse =>
    refine (closeFiles_finishes (During.start hs)).bind fun _ t ht => ?_
    obtain ⟨hduring, hnone⟩ := ht
    have hparent : ∀ q, ∃ parent, (if (t.proc q).parent = some p then { t.proc q with parent := t.initproc }
        else t.proc q) = { t.proc q with parent := parent } := by
      intro q
      split
      case isTrue => exact ⟨_, rfl⟩
      case isFalse => exact ⟨_, rfl⟩
    have hzombie := Outcome.zombie (c := c) hduring hs hp (fun fd => hnone fd (.inl (List.mem_finRange fd))) hparent
    exact .modify (.get hzombie)

omit hs hp in
theorem kfree_ok {v : Page} {k k' : Kmem} (h : kfree L v k = .ok ((), k')) :
    v ≠ 0 ∧ free k' = free k + {v} := by
  refine ⟨?_, by simpa using kfree_balances (i := 0) v _ _ _ h⟩
  rintro rfl
  have hend : 0 < L.endPg := by
    have hdata := L.lt_data
    have hle := L.data_le
    omega
  rw [kfree, if_pos (.inl hend)] at h
  cases h

theorem wait_finishes : Finishes Allowed (wait L p) s fun _ t => Outcome c s t := by
  refine .get ?_
  cases hfind : (List.finRange nproc).find? fun q => (s.proc q).parent = some p ∧ (s.proc q).state = .zombie with
  | none => exact .pure ((During.start hs).outcome hs hp)
  | some q =>
    have hzombie : (s.proc q).state = .zombie := by
      have hmatch := List.find?_some hfind
      simp only [decide_eq_true_eq] at hmatch
      exact hmatch.2
    have hunused : (s.proc q).state ≠ .unused := by
      rw [hzombie]
      decide
    refine onMem_bind fun _ k hk => withPgdir_bind fun d hd _ k' hk' => .modify (.pure ?_)
    obtain ⟨hne, hfree⟩ := kfree_ok hk
    have hstack : stackPage (s.proc q).kstack = {(s.proc q).kstack.getD 0} := by
      cases h : (s.proc q).kstack with
      | none => exact absurd (by rw [h]; rfl) hne
      | some v => rfl
    have hpgdir : free k' = free k + d.pages := by simpa using freevm_balances (i := 0) _ _ _ hk'
    have hkept : free k' + 0 = free s.files.kmem + (s.proc q).pages := by
      rw [Task.pages_of_ne_unused hunused, hpgdir, hfree, hstack, hd, add_zero, add_assoc]
      rfl
    exact Outcome.of_task hs rfl (hs.size q) (fun _ => hs.idle q (.inr hzombie)) hkept.le fun _ => hkept

end calls

def Allocated (s : System) (np : Slot) (kstack : Option Page) (state : ProcState) (k : Kmem) : System :=
  { s with
    files := { s.files with kmem := k }
    proc := update s.proc np { s.proc np with state := state, pid := s.nextpid, kstack := kstack }
    nextpid := s.nextpid + 1 }

theorem allocproc_finishes : Finishes Allowed allocproc s fun r t => match r with
    | none => t = s ∨ ∃ np k, (s.proc np).state = .unused ∧ free k = free s.files.kmem ∧
        t = Allocated s np none .unused k
    | some np => ∃ v k, (s.proc np).state = .unused ∧ free k + {v} = free s.files.kmem ∧
        t = Allocated s np (some v) .embryo k := by
  refine .get ?_
  cases hfind : (List.finRange nproc).find? fun p => (s.proc p).state = .unused with
  | none => exact .pure (.inl rfl)
  | some np =>
    have hunused : (s.proc np).state = .unused := by simpa using List.find?_some hfind
    refine .set (onMem_bind fun r k hk => .get ?_)
    have hfree : free k + stackPage r = free s.files.kmem := by
      simpa [stackPage] using kalloc_balances 0 _ _ _ hk
    cases r with
    | none =>
      refine .modify (.pure (.inr ⟨np, k, hunused, by simpa [stackPage] using hfree, ?_⟩))
      simp [Allocated]
    | some v =>
      refine .modify (.pure ⟨v, k, hunused, hfree, ?_⟩)
      simp [Allocated]

theorem dupFiles_finishes {np : Slot} {l : List (Fin nofile)} (hl : l.Nodup) (h : During np s 0 t)
    (hnone : ∀ fd ∈ l, (t.proc np).ofile fd = none) :
    Finishes Allowed (dupFiles p np l) t fun _ u => During np s 0 u := by
  induction l generalizing t with
  | nil => exact .pure h
  | cons fd l ih =>
    obtain ⟨hfd, hl⟩ := List.nodup_cons.mp hl
    obtain ⟨hnone₀, hnone⟩ := List.forall_mem_cons.mp hnone
    refine .get ?_
    cases hf : (t.proc p).ofile fd with
    | none => exact ih hl h hnone
    | some f =>
      have hbooks := h.books
      rw [add_zero] at hbooks
      refine .bind (onFiles_finishes ((filedup_finishes hbooks (refs_ne_zero hf)).mono fun _ fs hfs => ?_))
        fun _ u hu => hu
      refine setOfile_bind (ih hl ⟨(h.only.files fs).setOfile fd (some f), ?_⟩ fun fd' hfd' => ?_)
      · rw [add_zero]
        exact (refs_setOfile_some hnone₀).symm ▸ hfs
      · have hne' : fd' ≠ fd := by
          rintro rfl
          exact hfd hfd'
        simpa [System.setOfile, hne'] using hnone fd' hfd'

theorem fork_finishes (hs : Sound s) (hp : (s.proc p).Active) :
    Finishes Allowed (fork L p) s fun _ t => Outcome c s t := by
  refine allocproc_finishes.bind fun r t ht => ?_
  cases r with
  | none =>
    rcases ht with rfl | ⟨np, k, hunused, hk, rfl⟩
    · exact .pure ((During.start (p := p) hs).outcome hs hp)
    · have hkept : free k + 0 = free s.files.kmem + (s.proc np).pages := by
        rw [Task.pages_of_unused hunused, hk]
      exact .pure (Outcome.of_task hs rfl (hs.size np) (fun _ => hs.idle np (.inl hunused)) hkept.le fun _ => hkept)
  | some np =>
    obtain ⟨v, k, hunused, hk, rfl⟩ := ht
    have hne : p ≠ np := by
      rintro rfl
      exact hp.1 hunused
    have hparent : (Allocated s np (some v) .embryo k).proc p = s.proc p := update_of_ne hne _ _
    have hchild : (Allocated s np (some v) .embryo k).proc np =
        { s.proc np with state := .embryo, pid := s.nextpid, kstack := some v } := update_self _ _ _
    refine .get (withPgdir_bind fun _ _ r k' hk' => ?_)
    · rw [hparent] at hk'
      have hcopy : free k' + pagesOf r = free k + 0 := copyuvm_balances (hs.size p) _ _ _ hk'
      rw [add_zero] at hcopy
      rw [hparent, hchild]
      cases r with
      | none =>
        refine onMem_bind fun _ k'' hk'' => .modify (.pure ?_)
        have hfreed : free k'' = free k' + {v} := (kfree_ok hk'').2
        have hkept : free k'' + 0 = free s.files.kmem + (s.proc np).pages := by
          rw [Task.pages_of_unused hunused, hfreed, ← hk, ← hcopy]
          simp [pagesOf]
        have hout := Outcome.of_task (c := c) (p := np) (k := k'') (m := s.nextpid + 1)
          (x := { s.proc np with state := .unused, pid := s.nextpid, kstack := none, pgdir := none })
          hs rfl (hs.size np) (fun _ => hs.idle np (.inl hunused)) hkept.le fun _ => hkept
        simpa [Allocated] using hout
      | some d =>
        refine .modify ?_
        simp only [Allocated, update_idem]
        generalize hy : ({ s.proc np with
          state := .embryo
          pid := s.nextpid
          parent := some p
          kstack := some v
          pgdir := some d
          sz := (s.proc p).sz } : Task) = y
        have hofile : y.ofile = (s.proc np).ofile := by rw [← hy]
        have hbooks := hs.books.setKmem k'
        rw [← refs_update_of_ofile hofile] at hbooks
        have hduring : During np { s with
            files := { s.files with kmem := k' }
            proc := update s.proc np y
            nextpid := s.nextpid + 1 } 0 { s with
            files := { s.files with kmem := k' }
            proc := update s.proc np y
            nextpid := s.nextpid + 1 } := ⟨.refl, by simpa using hbooks⟩
        refine .bind (dupFiles_finishes (List.nodup_finRange nofile) hduring fun fd _ => ?_) fun _ w hw => ?_
        · simp [hofile, hs.idle np (.inl hunused)]
        · obtain ⟨honly, hbooks⟩ := hw
          rw [add_zero] at hbooks
          obtain ⟨files, ofile, rfl⟩ := honly
          refine .get (.modify (.pure ?_))
          have hrefs : refs (update s.proc np { y with ofile := ofile, state := .runnable }) =
              refs (update s.proc np { y with ofile := ofile }) := by
            refine refs_congr fun q => ?_
            by_cases hq : q = np
            · subst hq
              simp
            · simp [hq]
          simp only [update_idem, update_self] at hbooks ⊢
          have hkept : filePages files + ({ y with ofile := ofile, state := .runnable } : Task).pages =
              filePages s.files + (s.proc np).pages := by
            rw [Task.pages_of_unused hunused, Task.pages_of_ne_unused (show ProcState.runnable ≠ .unused by decide), hbooks.pages, filePages_kmem,
              filePages, ← hk, ← hcopy, ← hy]
            change _ + ({v} + d.pages) = free k' + d.pages + {v} + _ + 0
            abel
          refine Outcome.of_update hs ?_ ?_ (fun hq => ?_) hkept.le fun _ => hkept
          · rw [hrefs, hbooks.pages]
            exact hbooks
          · rw [← hy]
            exact hs.size p
          · exact absurd hq (by simp)

/-- What a call may not do: an argument string of `exec` that takes the stack pointer past the
device pages, 32 megabytes below the end of the address space. -/
def Call.Tame : Call → Prop
  | exec _ _ args => ∀ n ∈ args, n + 4 ≤ 33554432
  | _ => True

theorem Call.run_finishes (hs : Sound s) (hp : (s.proc p).Active) (c : Call) :
    Finishes Allowed (c.run L p) s fun _ t => Outcome c.Tame s t := by
  cases c with
  | fork => exact .discard (fork_finishes hs hp)
  | exec word img args => exact .discard (exec_finishes hs hp)
  | sbrk n => exact .discard (sysSbrk_finishes hs hp)
  | «open» found readable writable => exact .discard (sysOpen_finishes hs hp)
  | pipe valid => exact .discard (sysPipe_finishes hs hp)
  | dup fd => exact .discard (sysDup_finishes hs hp)
  | close fd => exact .discard (sysClose_finishes hs hp)
  | exit => exact exit_finishes hs hp
  | wait => exact .discard (wait_finishes hs hp)

end Xv6.Vm
