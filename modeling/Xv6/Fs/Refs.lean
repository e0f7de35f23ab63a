import Mathlib.Tactic.Abel
import Xv6.Lib.Count
import Xv6.Lib.Run
import Xv6.Fs.File
import Xv6.Fs.Holds
import Xv6.Fs.Move

namespace Xv6.Fs

open Function Lib Prog

variable {n : Nat}

def File.holds (x : File n) : Fin n → Int := if x.type = .fdInode then Pi.single x.ip 1 else 0

def fileRefs (file : Fin nfile → File n) (i : Fin n) : Int :=
  count (fun x : File n => x.type = .fdInode ∧ x.ip = i) file

def ProcSlot.cwd : ProcSlot n → Option (Fin n)
  | live task => some task.cwd
  | _ => none

theorem ProcSlot.cwd_of_isUnused {x : ProcSlot n} (h : x.isUnused) : x.cwd = none := by
  cases x with
  | unused => rfl
  | zombie _ | live _ => cases h

theorem ProcSlot.cwd_of_isZombie {x : ProcSlot n} (h : x.isZombie) : x.cwd = none := by
  cases x with
  | zombie _ => rfl
  | unused | live _ => cases h

theorem ProcSlot.cwd_setParent {x : ProcSlot n} {q : Option Slot} : (x.setParent q).cwd = x.cwd := by
  cases x <;> rfl

def cwdRefs (proc : Slot → ProcSlot n) (i : Fin n) : Int :=
  count (fun x : ProcSlot n => x.cwd = some i) proc

def Closed (file : Fin nfile → File n) : Prop := ∀ f, (file f).ref = 0 → (file f).type ≠ .fdInode

theorem fileRefs_update (file : Fin nfile → File n) (f : Fin nfile) (x : File n) :
    fileRefs (update file f x) = fileRefs file - (file f).holds + x.holds := by
  have hind : ∀ (y : File n) (i : Fin n),
      (if y.type = .fdInode ∧ y.ip = i then (1 : Int) else 0) = y.holds i := by
    intro y i
    by_cases ht : y.type = .fdInode
    · simp [File.holds, ht, Pi.single_apply, eq_comm]
    · simp [File.holds, ht]
  funext i
  rw [fileRefs, count_update, hind, hind]
  rfl

theorem cwdRefs_update (proc : Slot → ProcSlot n) (p : Slot) (x : ProcSlot n) :
    cwdRefs (update proc p x) = cwdRefs proc - plus 0 (proc p).cwd + plus 0 x.cwd := by
  have hind : ∀ (o : Option (Fin n)) (i : Fin n),
      (if o = some i then (1 : Int) else 0) = plus 0 o i := by
    intro o i
    cases o with
    | none => simp [plus]
    | some j => simp [plus, Pi.single_apply, eq_comm]
  funext i
  rw [cwdRefs, count_update, hind, hind]
  rfl

theorem cwdRefs_congr {proc proc' : Slot → ProcSlot n} (h : ∀ p, (proc p).cwd = (proc' p).cwd) :
    cwdRefs proc = cwdRefs proc' := by
  funext i
  exact count_congr fun p => by rw [h p]

theorem fileRefs_nonneg : 0 ≤ fileRefs file := fun _ => count_nonneg

theorem cwdRefs_nonneg : 0 ≤ cwdRefs proc := fun _ => count_nonneg

structure At (fl : Fin nfile → File n) (t : Task n) (L : Fin n → Bool) (b : Fin n → Int) (c : Ctx n) :
    Prop where
  file : c.file = fl
  task : c.task = t
  fs : Holds L (fileRefs fl + b) c.fs

def Files (t : Task n) (L : Fin n → Bool) (b : Fin n → Int) (c : Ctx n) : Prop :=
  ∃ fl, Closed fl ∧ At fl t L b c

section Rules

variable {fl : Fin nfile → File n} {t : Task n} {L : Fin n → Bool} {b : Fin n → Int} {α β : Type}
  {f : Fin nfile}

theorem onFs_eq_ok (h : onFs x c = .ok (a, c')) :
    ∃ s, x c.fs = .ok (a, s) ∧ c' = { c with fs := s } := by
  change (x c.fs).map _ = _ at h
  cases hx : x c.fs with
  | error e =>
    rw [hx] at h
    cases h
  | ok r =>
    rw [hx] at h
    cases h
    exact ⟨r.2, rfl, rfl⟩

theorem onFs_at {x : M n α} {K : α → Fin n → Bool} {d : α → Fin n → Int}
    (h : Triple (Holds L (fileRefs fl + b)) x fun a => Holds (K a) (fileRefs fl + d a)) :
    Triple (At fl t L b) (onFs x) fun a => At fl t (K a) (d a) := by
  rintro c a c' ⟨rfl, rfl, hfs⟩ hx
  obtain ⟨s, hs, rfl⟩ := onFs_eq_ok hx
  exact ⟨rfl, rfl, h _ _ _ hfs hs⟩

theorem add_plus (R b : Fin n → Int) (r : Option (Fin n)) : plus (R + b) r = R + plus b r := by
  cases r with
  | none => rfl
  | some j => exact add_assoc R b _

theorem onFs_plus {x : M n (Option (Fin n))} {K : Option (Fin n) → Fin n → Bool}
    (h : Triple (Holds L (fileRefs fl + b)) x fun r => Holds (K r) (plus (fileRefs fl + b) r)) :
    Triple (At fl t L b) (onFs x) fun r => At fl t (K r) (plus b r) :=
  onFs_at <| h.conseq (fun _ hs => hs) fun r _ hs => add_plus (fileRefs fl) b r ▸ hs

theorem get_at
    (h : ∀ s, Triple (At fl t L b) (g ⟨s, fl, t⟩) Q) : Triple (At fl t L b) (MonadState.get >>= g) Q :=
  .get fun c hc => by
    obtain ⟨s, _, _⟩ := c
    obtain ⟨rfl, rfl, -⟩ := hc
    exact h s

theorem setFile_at (d : Fin n → Int)
    (hb : fileRefs fl + b = fileRefs (update fl f x) + d) :
    Triple (At fl t L b) (setFile f x) fun _ => At (update fl f x) t L d := by
  rintro c ⟨⟩ c' ⟨rfl, rfl, hfs⟩ hx
  cases hx
  exact ⟨rfl, rfl, hb ▸ hfs⟩

theorem setOfile_at :
    Triple (At fl t L b) (setOfile fd o) fun _ =>
      At fl { t with ofile := update t.ofile fd o } L b := by
  rintro c ⟨⟩ c' ⟨rfl, rfl, hfs⟩ hx
  cases hx
  exact ⟨rfl, rfl, hfs⟩

theorem setCwd_at :
    Triple (At fl t L b) (setCwd ip) fun _ => At fl { t with cwd := ip } L b := by
  rintro c ⟨⟩ c' ⟨rfl, rfl, hfs⟩ hx
  cases hx
  exact ⟨rfl, rfl, hfs⟩

theorem iput_at (hb : 0 ≤ b) :
    Triple (At fl t L (b + Pi.single i 1)) (onFs (iput i)) fun _ => At fl t L b := by
  refine onFs_at (K := fun _ => L) (d := fun _ => b) ?_
  rw [← add_assoc]
  exact iput_holds (add_nonneg fileRefs_nonneg hb)

theorem iunlockput_at (hl : L i = false) (hb : 0 ≤ b) :
    Triple (At fl t (update L i true) (b + Pi.single i 1)) (onFs (iunlockput i)) fun _ =>
      At fl t L b := by
  refine onFs_at (K := fun _ => L) (d := fun _ => b) ?_
  rw [← add_assoc]
  exact iunlockput_holds hl (add_nonneg fileRefs_nonneg hb)

theorem idup_at (hpos : 0 < (fileRefs fl + b) i) :
    Triple (At fl t L b) (onFs (idup i)) fun j => At fl t L (b + Pi.single j 1) := by
  refine onFs_at (K := fun _ => L) (d := fun j => b + Pi.single j 1) ?_
  refine (idup_holds hpos).conseq (fun _ h => h) fun j s hs => ?_
  obtain ⟨rfl, hs⟩ := hs
  rwa [← add_assoc]

theorem ilock_at :
    Triple (At fl t L b) (onFs (ilock i)) fun _ => At fl t (update L i true) b :=
  onFs_at (d := fun _ => b) (ilock_holds.conseq (fun _ h => h) fun _ _ h => h.2)

theorem iunlock_at (hl : L i = false) :
    Triple (At fl t (update L i true) b) (onFs (iunlock i)) fun _ => At fl t L b :=
  onFs_at (K := fun _ => L) (d := fun _ => b) (iunlock_holds hl)

theorem fileRefs_setRef (fl : Fin nfile → File n) (f : Fin nfile) (k : Int) :
    fileRefs (update fl f { fl f with ref := k }) = fileRefs fl := by
  rw [fileRefs_update]
  exact sub_add_cancel _ _

theorem type_setRef (fl : Fin nfile → File n) (f g : Fin nfile) (k : Int) :
    (update fl f { fl f with ref := k } g).type = (fl g).type := by
  by_cases hgf : g = f
  · rw [hgf, update_self]
  · rw [update_of_ne hgf]

theorem Closed.update (hfl : Closed fl) (hx : x.ref = 0 → x.type ≠ .fdInode) :
    Closed (update fl f x) := by
  intro g hg
  by_cases hgf : g = f
  · subst hgf
    rw [update_self] at hg ⊢
    exact hx hg
  · rw [update_of_ne hgf] at hg ⊢
    exact hfl g hg

theorem filealloc_at (hfl : Closed fl) : Triple (At fl t L b) filealloc fun r => match r with
    | none => At fl t L b
    | some f => fun c => (fl f).type ≠ .fdInode ∧
      At (update fl f { fl f with ref := 1 }) t L b c := by
  refine get_at fun s => ?_
  split
  case h_1 => exact .pure fun c hc => hc
  case h_2 f hfind =>
    have href : (fl f).ref = 0 := by simpa using List.find?_some hfind
    exact (setFile_at b (by rw [fileRefs_setRef])).bind fun _ => .pure fun c hc => ⟨hfl f href, hc⟩

theorem filedup_at (hfl : Closed fl) : Triple (At fl t L b) (filedup f) fun _ => Files t L b := by
  refine get_at fun s => .ite (fun _ => .throw) fun href => ?_
  refine (setFile_at b (by rw [fileRefs_setRef])).bind fun _ => .pure fun c hc => ⟨_, ?_, hc⟩
  exact hfl.update fun h => by
    simp only at h href
    omega

theorem fileclose_at (hfl : Closed fl) (hb : 0 ≤ b) :
    Triple (At fl t L b) (fileclose f) fun _ => Files t L b := by
  refine get_at fun s => .ite (fun _ => .throw) fun href => .ite (fun hmore => ?_) fun hlast => ?_
  · refine (setFile_at b (by rw [fileRefs_setRef])).conseq (fun _ h => h) fun _ c hc => ⟨_, ?_, hc⟩
    exact hfl.update fun h => by
      simp only at h hmore
      omega
  · have hclosed : Closed (update fl f { fl f with ref := 0, type := .fdNone }) :=
      hfl.update fun _ => nofun
    have hrefs : fileRefs (update fl f { fl f with ref := 0, type := .fdNone }) =
        fileRefs fl - (fl f).holds := by
      rw [fileRefs_update]
      exact add_zero _
    refine (setFile_at (b + (fl f).holds) ?_).bind fun _ => .ite (fun hinode => ?_) fun hother => ?_
    · rw [hrefs]
      abel
    · rw [File.holds, if_pos hinode]
      exact (iput_at hb).conseq (fun _ h => h) fun _ c hc => ⟨_, hclosed, hc⟩
    · rw [File.holds, if_neg hother, add_zero]
      exact .pure fun c hc => ⟨_, hclosed, hc⟩

theorem setPipe_at (hfl : Closed fl) (hf : (fl f).type ≠ .fdInode) :
    Triple (At fl t L b) (setPipe f readable writable) fun _ c => ∃ fl', Closed fl' ∧
      (∀ g, (fl g).type ≠ .fdInode → (fl' g).type ≠ .fdInode) ∧ At fl' t L b c := by
  refine get_at fun s => (setFile_at b ?_).conseq (fun _ h => h) fun _ c hc => ⟨_, ?_, ?_, hc⟩
  · rw [fileRefs_update, File.holds, if_neg hf, File.holds, if_neg nofun, sub_zero, add_zero]
  · exact hfl.update fun _ => nofun
  · intro g hg
    by_cases hgf : g = f
    · rw [hgf, update_self]
      exact nofun
    · rwa [update_of_ne hgf]

theorem fdalloc_at : Triple (At fl t L b) (fdalloc f) fun r => match r with
    | none => At fl t L b
    | some _ => fun c => ∃ t', t'.cwd = t.cwd ∧ At fl t' L b c := by
  refine get_at fun s => ?_
  split
  case h_1 => exact .pure fun c hc => hc
  case h_2 fd _ =>
    exact setOfile_at.bind fun _ => .pure fun c hc =>
      ⟨{ t with ofile := update t.ofile fd (some f) }, rfl, hc⟩

theorem argfd_at : Triple (At fl t L b) (argfd fd) fun _ => At fl t L b := by
  refine get_at fun s => ?_
  split
  case isTrue => exact .pure fun c hc => hc
  case isFalse => exact .pure fun c hc => hc

theorem fileclose_files (hb : 0 ≤ b) : Triple (Files t L b) (fileclose f) fun _ => Files t L b :=
  .exists_pre fun _ => .and_left fun hfl => fileclose_at hfl hb

theorem pipealloc_files (hb : 0 ≤ b) :
    Triple (Files t L b) (pipealloc mem) fun _ => Files t L b := by
  refine .exists_pre fun fl => .and_left fun hfl => (filealloc_at hfl).bind fun r => ?_
  cases r with
  | none => exact .pure fun c hc => ⟨fl, hfl, hc⟩
  | some rf =>
    refine .and_left fun hrf => ?_
    have hfl₁ : Closed (update fl rf { fl rf with ref := 1 }) :=
      hfl.update fun h => absurd h one_ne_zero
    refine (filealloc_at hfl₁).bind fun r => ?_
    cases r with
    | none => exact (fileclose_at hfl₁ hb).bind fun _ => .pure fun c hc => hc
    | some wf =>
      refine .and_left fun hwf => ?_
      have hfl₂ : Closed (update (update fl rf { fl rf with ref := 1 }) wf
          { update fl rf { fl rf with ref := 1 } wf with ref := 1 }) :=
        hfl₁.update fun h => absurd h one_ne_zero
      refine .ite (fun _ => ?_) fun _ => ?_
      · refine (fileclose_at hfl₂ hb).bind fun _ => (fileclose_files hb).bind fun _ => ?_
        exact .pure fun c hc => hc
      · refine (setPipe_at hfl₂ ?_).bind fun _ => .exists_pre fun fl₃ => .and_left fun hfl₃ =>
          .and_left fun hkeep => ?_
        · rw [type_setRef, type_setRef]
          exact hrf
        · refine (setPipe_at hfl₃ (hkeep wf ?_)).bind fun _ => .pure fun c hc => ?_
          · rw [type_setRef]
            exact hwf
          · obtain ⟨fl₄, hfl₄, -, hc⟩ := hc
            exact ⟨fl₄, hfl₄, hc⟩

theorem dupFiles_files :
    Triple (Files t L b) (dupFiles fds) fun _ => Files t L b := by
  induction fds with
  | nil => exact .pure fun c hc => hc
  | cons fd fds ih =>
    refine .exists_pre fun fl => .and_left fun hfl => get_at fun s => ?_
    cases t.ofile fd with
    | none => exact ih.pre fun c hc => ⟨fl, hfl, hc⟩
    | some f => exact (filedup_at hfl).bind fun _ => ih

theorem closeFiles_files (hb : 0 ≤ b) : Triple (Files t L b) (closeFiles fds)
    fun _ c => ∃ t', t'.cwd = t.cwd ∧ Files t' L b c := by
  induction fds generalizing t with
  | nil => exact .pure fun c hc => ⟨t, rfl, hc⟩
  | cons fd fds ih =>
    refine .exists_pre fun fl => .and_left fun hfl => get_at fun s => ?_
    cases t.ofile fd with
    | none => exact ih.pre fun c hc => ⟨fl, hfl, hc⟩
    | some f =>
      refine (fileclose_at hfl hb).bind fun _ => .exists_pre fun fl₁ => .and_left fun hfl₁ => ?_
      exact setOfile_at.bind fun _ =>
        (ih (t := { t with ofile := update t.ofile fd none })).pre fun c hc => ⟨fl₁, hfl₁, hc⟩

end Rules

def Rest (b : Fin n → Int) (c : Ctx n) : Prop := Files c.task noLocks (b + Pi.single c.task.cwd 1) c

section Calls

variable {b : Fin n → Int} (hb : 0 ≤ b)

theorem Rest.fix
    (h : ∀ fl t, Closed fl → Triple (At fl t noLocks (b + Pi.single t.cwd 1)) x Q) :
    Triple (Rest b) x Q := by
  rintro c a c' ⟨fl, hfl, hc⟩ hx
  exact h fl c.task hfl c a c' hc hx

theorem Rest.of_files (h : Files t noLocks (b + Pi.single t.cwd 1) c) :
    Rest b c := by
  obtain ⟨fl, hfl, hc⟩ := h
  obtain rfl := hc.task
  exact ⟨fl, hfl, hc⟩

theorem sysDup_rest : Triple (Rest b) (sysDup fd) fun _ => Rest b := by
  refine Rest.fix fun fl t hfl => argfd_at.bind fun r => ?_
  cases r with
  | none => exact .pure fun c hc => .of_files ⟨fl, hfl, hc⟩
  | some p =>
    refine fdalloc_at.bind fun r => ?_
    cases r with
    | none => exact .pure fun c hc => .of_files ⟨fl, hfl, hc⟩
    | some fd =>
      refine .exists_pre fun t' => .and_left fun ht => (filedup_at hfl).bind fun _ => ?_
      exact .pure fun c hc => .of_files (ht ▸ hc)

include hb in
theorem sysClose_rest : Triple (Rest b) (sysClose fd) fun _ => Rest b := by
  refine Rest.fix fun fl t hfl => argfd_at.bind fun r => ?_
  cases r with
  | none => exact .pure fun c hc => .of_files ⟨fl, hfl, hc⟩
  | some p =>
    have hb₁ : 0 ≤ b + Pi.single t.cwd 1 := hb.trans (le_add_single b t.cwd)
    refine setOfile_at.bind fun _ => (fileclose_at hfl hb₁).bind fun _ => ?_
    exact .pure fun c hc => .of_files hc

include hb in
theorem rest_nonneg {fl : Fin nfile → File n} {t : Task n} :
    0 ≤ fileRefs fl + (b + Pi.single t.cwd 1) :=
  add_nonneg fileRefs_nonneg (hb.trans (le_add_single b t.cwd))

include hb in
theorem rest_cwd {fl : Fin nfile → File n} {t : Task n} :
    0 < (fileRefs fl + (b + Pi.single t.cwd 1) : Fin n → Int) t.cwd := by
  have hfl := (fileRefs_nonneg : 0 ≤ fileRefs fl) t.cwd
  have hcwd := hb t.cwd
  simp only [Pi.add_apply, Pi.single_eq_same, Pi.zero_apply] at hfl hcwd ⊢
  omega

variable [NeZero n]

omit [NeZero n] in
include hb in
theorem fromCwd_rest {x : Fin n → M n Int} (hx : ∀ (cwd : Fin n) (R : Fin n → Int), 0 < R cwd → 0 ≤ R →
    Triple (Holds noLocks R) (x cwd) fun _ => Holds noLocks R) :
    Triple (Rest b) (fromCwd x) fun _ => Rest b := by
  refine Rest.fix fun fl t hfl => get_at fun s => ?_
  refine (onFs_at (hx t.cwd _ (rest_cwd hb) (rest_nonneg hb))).conseq (fun _ h => h) fun _ c hc => ?_
  exact .of_files ⟨fl, hfl, hc⟩

include hb in
theorem sysOpen_rest :
    Triple (Rest b) (sysOpen path omode) fun _ => Rest b := by
  refine Rest.fix fun fl t hfl => get_at fun s => ?_
  have hb₁ : 0 ≤ b + Pi.single t.cwd 1 := hb.trans (le_add_single b t.cwd)
  refine (onFs_plus (openInode_holds (rest_cwd hb) (rest_nonneg hb))).bind fun r => ?_
  cases r with
  | none => exact .pure fun c hc => .of_files ⟨fl, hfl, hc⟩
  | some ip =>
    refine (filealloc_at hfl).bind fun r => ?_
    cases r with
    | none => exact (iunlockput_at rfl hb₁).bind fun _ => .pure fun c hc => .of_files ⟨fl, hfl, hc⟩
    | some f =>
      refine .and_left fun hnew => ?_
      have hfl₁ : Closed (update fl f { fl f with ref := 1 }) :=
        hfl.update fun h => absurd h one_ne_zero
      refine fdalloc_at.bind fun r => ?_
      cases r with
      | none =>
        refine (fileclose_at hfl₁ (hb₁.trans (le_add_single _ ip))).bind fun _ => ?_
        refine .exists_pre fun fl₂ => .and_left fun hfl₂ => (iunlockput_at rfl hb₁).bind fun _ => ?_
        exact .pure fun c hc => .of_files ⟨fl₂, hfl₂, hc⟩
      | some fd =>
        refine .exists_pre fun t₁ => .and_left fun ht => ?_
        refine (iunlock_at rfl).bind fun _ => get_at fun s₁ => ?_
        refine (setFile_at (b + Pi.single t.cwd 1) ?_).bind fun _ => .pure fun c hc => ?_
        · change _ + (b + Pi.single t.cwd 1 + Pi.single ip 1) = _
          rw [fileRefs_update (update fl f _), update_self, fileRefs_setRef,
            File.holds, if_neg hnew, File.holds, if_pos rfl]
          abel
        · refine .of_files ⟨_, hfl₁.update fun h => ?_, ht ▸ hc⟩
          simp only [update_self] at h
          exact absurd h one_ne_zero

include hb in
theorem sysChdir_rest : Triple (Rest b) (sysChdir path) fun _ => Rest b := by
  refine Rest.fix fun fl t hfl => get_at fun s => ?_
  have hb₁ : 0 ≤ b + Pi.single t.cwd 1 := hb.trans (le_add_single b t.cwd)
  refine (onFs_plus (namei_holds (rest_cwd hb))).bind fun r => ?_
  cases r with
  | none => exact .pure fun c hc => .of_files ⟨fl, hfl, hc⟩
  | some ip =>
    refine ilock_at.bind fun _ => get_at fun s => .ite (fun _ => ?_) fun _ => ?_
    · exact (iunlockput_at rfl hb₁).bind fun _ => .pure fun c hc => .of_files ⟨fl, hfl, hc⟩
    · refine (iunlock_at rfl).bind fun _ => ?_
      have hswap : plus (b + Pi.single t.cwd 1) (some ip) = b + Pi.single ip 1 + Pi.single t.cwd 1 :=
        add_right_comm _ _ _
      rw [hswap]
      refine (iput_at (hb.trans (le_add_single b ip))).bind fun _ => setCwd_at.bind fun _ => ?_
      exact .pure fun c hc => .of_files ⟨fl, hfl, hc⟩

omit [NeZero n]

include hb in
theorem sysPipe_rest : Triple (Rest b) (sysPipe mem) fun _ => Rest b := by
  refine Rest.fix fun fl t hfl => ?_
  have hb₁ : 0 ≤ b + Pi.single t.cwd 1 := hb.trans (le_add_single b t.cwd)
  refine ((pipealloc_files hb₁).pre fun c hc => ⟨fl, hfl, hc⟩).bind fun r => ?_
  cases r with
  | none => exact .pure fun c hc => .of_files hc
  | some p =>
    obtain ⟨rf, wf⟩ := p
    have hclose (t' : Task n) (ht : t'.cwd = t.cwd) :
        Triple (Files t' noLocks (b + Pi.single t.cwd 1)) (do
          fileclose rf
          fileclose wf
          return (-1 : Int)) fun _ => Rest b := by
      refine (fileclose_files hb₁).bind fun _ => (fileclose_files hb₁).bind fun _ => ?_
      exact .pure fun c hc => .of_files (ht ▸ hc)
    refine .exists_pre fun fl₁ => .and_left fun hfl₁ => fdalloc_at.bind fun r => ?_
    cases r with
    | none => exact (hclose t rfl).pre fun c hc => ⟨fl₁, hfl₁, hc⟩
    | some fd0 =>
      refine .exists_pre fun t₁ => .and_left fun ht₁ => fdalloc_at.bind fun r => ?_
      cases r with
      | none =>
        refine setOfile_at.bind fun _ => ?_
        refine (hclose { t₁ with ofile := update t₁.ofile fd0 none } ht₁).pre ?_
        exact fun c hc => ⟨fl₁, hfl₁, hc⟩
      | some fd1 =>
        refine .pure fun c hc => ?_
        obtain ⟨t₂, ht₂, hc⟩ := hc
        exact .of_files ⟨fl₁, hfl₁, (ht₂.trans ht₁) ▸ hc⟩

include hb in
theorem forkTask_files {p : Slot} {t : Task n} :
    Triple (Files t noLocks (b + Pi.single t.cwd 1)) (forkTask p)
      fun child => Files t noLocks (b + Pi.single t.cwd 1 + Pi.single child.cwd 1) := by
  refine dupFiles_files.bind fun _ => .exists_pre fun fl => .and_left fun hfl => get_at fun s => ?_
  exact (idup_at (rest_cwd hb)).bind fun cwd => .pure fun c hc => ⟨fl, hfl, hc⟩

include hb in
theorem exitTask_files : Triple (Files t noLocks (b + Pi.single t.cwd 1)) exitTask
    fun _ c => ∃ t', Files t' noLocks b c := by
  have hb₁ : 0 ≤ b + Pi.single t.cwd 1 := hb.trans (le_add_single b t.cwd)
  refine (closeFiles_files hb₁).bind fun _ => .exists_pre fun t' => .and_left fun ht =>
    .exists_pre fun fl => .and_left fun hfl => get_at fun s => ?_
  rw [← ht]
  exact (iput_at hb).conseq (fun _ h => h) fun _ c hc => ⟨t', fl, hfl, hc⟩

end Calls

end Xv6.Fs
