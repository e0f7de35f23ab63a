import Xv6.Fs.Refs

namespace Xv6.Fs

open Function Lib Prog

variable {n : Nat}

structure Accounted (σ : Sys n) : Prop where
  refs : ∀ i, σ.fs.ref i = fileRefs σ.file i + cwdRefs σ.proc i
  unlocked : ∀ i, σ.fs.locked i = false

def Call.isMove : Call → Bool
  | .file (.moveFile _ _) => true
  | _ => false

structure Covered (k : Fin n → Int) (σ : Sys n) : Prop where
  refs : ∀ i, σ.fs.ref i = fileRefs σ.file i + cwdRefs σ.proc i + k i
  unlocked : ∀ i, σ.fs.locked i = false

theorem accounted_iff : Accounted σ ↔ Covered 0 σ := by
  constructor
  · intro h
    exact ⟨fun i => (h.refs i).trans (add_zero _).symm, h.unlocked⟩
  · intro h
    exact ⟨fun i => (h.refs i).trans (add_zero _), h.unlocked⟩

structure Intact (σ : Sys n) : Prop where
  sound : Sound σ.fs
  closed : Closed σ.file

def others (σ : Sys n) (p : Slot) : Fin n → Int := cwdRefs (update σ.proc p .unused)

section Processes

theorem others_nonneg : 0 ≤ others σ p := cwdRefs_nonneg

theorem cwdRefs_live (h : σ.proc p = .live task) :
    cwdRefs σ.proc = others σ p + Pi.single task.cwd 1 := by
  rw [others, cwdRefs_update, h]
  simp [ProcSlot.cwd, plus]

theorem cwdRefs_update_live : cwdRefs (update σ.proc p (.live task)) =
    others σ p + Pi.single task.cwd 1 := by
  rw [others, cwdRefs_update, cwdRefs_update]
  simp [ProcSlot.cwd, plus]

theorem files_of_covered (hi : Intact σ) (hk : Covered k σ) (h : σ.proc p = .live task) :
    Files task noLocks (others σ p + k + Pi.single task.cwd 1) (σ.ctx task) := by
  refine ⟨σ.file, hi.closed, rfl, rfl, hi.sound, funext hk.unlocked, funext fun i => ?_⟩
  change σ.fs.ref i = _
  rw [hk.refs, cwdRefs_live h]
  simp only [Pi.add_apply]
  omega

theorem covered_of_files (h : Files task noLocks b c)
    (hb : b = cwdRefs proc + k) : Intact ⟨c.fs, c.file, proc⟩ ∧ Covered k ⟨c.fs, c.file, proc⟩ := by
  obtain ⟨fl, hfl, rfl, -, hfs⟩ := h
  refine ⟨⟨hfs.sound, hfl⟩, fun i => ?_, fun i => ?_⟩
  · change c.fs.ref i = _
    rw [hfs.ref, hb, ← add_assoc]
    rfl
  · change c.fs.locked i = _
    rw [hfs.locked]
    rfl

end Processes

section Move

variable [NeZero n] {v v' : Store n} {cwd : Fin n} {src dest : Str}

/-- Both paths lead somewhere, and there the name that `move_file` makes up for the entry is new. -/
def MakesEntry (v : Store n) (cwd : Fin n) (src dest : Str) : Prop :=
  ∃ S D, v.resolve (Store.start cwd src) (elems src) = some S ∧
    v.resolve (Store.start cwd dest) (elems dest) = some D ∧ v.lookup D (safestrcpy src dirsiz) = none

theorem Success.makesEntry
    (h : Success v cwd src dest v' S D P name entries old off) : MakesEntry v cwd src dest := by
  refine ⟨S, D, h.source, h.target, ?_⟩
  rw [Store.lookup, h.target_dir]
  simp only [h.fresh, Option.map_none]

theorem Moves.cases (hlocks : ∀ i, v.locked i = false)
    (h : Moves v cwd src dest (.ok (x, v'))) : (¬ MakesEntry v cwd src dest ∧ v' = v) ∨
      ∃ S D P name entries old off, Success v cwd src dest v' S D P name entries old off := by
  cases h with
  | srcMissing hwalk =>
    have hsrc := resolve_eq_none_of_walk (v := v) (fun _ _ => rfl) (walk_of_walkPath hwalk)
    refine .inl ⟨?_, rfl⟩
    rintro ⟨S, D, hS, -⟩
    cases hsrc.symm.trans hS
  | @go S m _ hwalk _ hfrom =>
    have hsrc := resolve_of_walk (v := v) (fun _ _ => rfl) (walk_of_walkPath hwalk)
    cases hfrom with
    | destMissing hwalk =>
      have hdest := resolve_eq_none_of_walk (v := v) (w := v.take S) (fun _ _ => rfl)
        (walk_of_walkPath hwalk)
      refine .inl ⟨?_, rfl⟩
      rintro ⟨S', D, -, hD, -⟩
      cases hdest.symm.trans hD
    | @into D _ entries _ hwalk _ hdir hinto =>
      have hdest := resolve_of_walk (v := v) (w := v.take S) (fun _ _ => rfl) (walk_of_walkPath hwalk)
      cases hinto with
      | present hfind _ _ _ =>
        refine .inl ⟨?_, rfl⟩
        rintro ⟨S', D', -, hD', hnone⟩
        cases hdest.symm.trans hD'
        rw [Store.lookup, hdir] at hnone
        simp [hfind] at hnone
      | moved hfind hmax hblocks hback hPS hPD hold hfindP =>
        obtain ⟨P, name, old, off, h⟩ := MovesInto.success hlocks hsrc hdest hdir
          (.moved hfind hmax hblocks hback hPS hPD hold hfindP)
        exact .inr ⟨S, D, P, name, entries, old, off, h⟩

end Move

section Steps

variable {σ σ' : Sys n} {p : Slot} {task : Task n} {k : Fin n → Int} (hi : Intact σ) (hk : Covered k σ)
  (h0 : 0 ≤ k) (hp : σ.proc p = .live task)

include h0 in
theorem rest_of_others_nonneg : 0 ≤ others σ p + k := add_nonneg others_nonneg h0

include hi hk h0 hp in
theorem fork_covered (h : σ.fork p task mem = some σ') : Intact σ' ∧ Covered k σ' := by
  unfold Sys.fork at h
  split at h
  case h_1 =>
    cases h
    exact ⟨hi, hk⟩
  case h_2 q hfind =>
    split at h
    case isTrue =>
      cases h
      exact ⟨hi, hk⟩
    case isFalse =>
      split at h
      case h_1 => cases h
      case h_2 child c hrun =>
        cases h
        have hfiles := forkTask_files (rest_of_others_nonneg h0) _ _ _ (files_of_covered hi hk hp) hrun
        have hunused := List.find?_some hfind
        have hnew : (σ.proc q).cwd = none := ProcSlot.cwd_of_isUnused hunused
        refine covered_of_files hfiles ?_
        rw [cwdRefs_update, hnew, cwdRefs_live hp]
        simp only [plus, ProcSlot.cwd]
        abel

include hi hk h0 hp in
theorem exit_covered (h : σ.exit p task = some σ') : Intact σ' ∧ Covered k σ' := by
  unfold Sys.exit at h
  split at h
  case isTrue => cases h
  case isFalse =>
    split at h
    case h_1 => cases h
    case h_2 c hrun =>
      cases h
      obtain ⟨t', hfiles⟩ :=
        exitTask_files (rest_of_others_nonneg h0) _ _ _ (files_of_covered hi hk hp) hrun
      refine covered_of_files hfiles (congrArg (· + k) (cwdRefs_congr fun q => ?_))
      by_cases hq : q = p
      · rw [hq, update_self, update_self]
        rfl
      · rw [update_of_ne hq, update_of_ne hq]
        split
        case isTrue => rw [ProcSlot.cwd_setParent]
        case isFalse => rfl

include hi hk in
theorem wait_covered (h : σ.wait p = some σ') : Intact σ' ∧ Covered k σ' := by
  unfold Sys.wait at h
  split at h
  case h_1 q hfind =>
    cases h
    have hchild := List.find?_some hfind
    have hzombie : (σ.proc q).cwd = none := ProcSlot.cwd_of_isZombie (of_decide_eq_true hchild).2
    refine ⟨⟨hi.sound, hi.closed⟩, fun i => ?_, hk.unlocked⟩
    rw [cwdRefs_update, hzombie]
    simpa [plus, ProcSlot.cwd] using hk.refs i
  case h_2 =>
    split at h
    case isTrue => cases h
    case isFalse =>
      cases h
      exact ⟨hi, hk⟩

variable [NeZero n]

include hi hk h0 hp in
theorem call_covered (h : σ.call p task c = some σ')
    (hc : ∀ srcFile destDir, c ≠ .moveFile srcFile destDir) : Intact σ' ∧ Covered k σ' := by
  have hb : 0 ≤ others σ p + k := rest_of_others_nonneg h0
  have hrest : Triple (Rest (others σ p + k)) c.run fun _ => Rest (others σ p + k) := by
    cases c with
    | openFile => exact sysOpen_rest hb
    | close => exact sysClose_rest hb
    | dup => exact sysDup_rest
    | link => exact fromCwd_rest hb fun _ _ hcwd hR => sysLink_holds hcwd hR
    | unlink => exact fromCwd_rest hb fun _ _ hcwd hR => sysUnlink_holds hcwd hR
    | mkdir => exact fromCwd_rest hb fun _ _ hcwd hR => makeNode_holds hcwd hR
    | mknod => exact fromCwd_rest hb fun _ _ hcwd hR => makeNode_holds hcwd hR
    | chdir => exact sysChdir_rest hb
    | exec => exact fromCwd_rest hb fun _ _ hcwd hR => exec_holds hcwd hR
    | pipe => exact sysPipe_rest hb
    | moveFile srcFile destDir => exact absurd rfl (hc srcFile destDir)
  unfold Sys.call at h
  split at h
  case h_1 => cases h
  case h_2 r c' hrun =>
    cases h
    have hfiles := hrest (σ.ctx task) _ _ (files_of_covered hi hk hp) hrun
    refine covered_of_files hfiles ?_
    rw [cwdRefs_update_live]
    abel

omit [NeZero n] in
include hk h0 hp in
theorem cwd_referenced : 0 < σ.fs.ref task.cwd := by
  have hfl := (fileRefs_nonneg : 0 ≤ fileRefs σ.file) task.cwd
  have hlive : 0 < cwdRefs σ.proc task.cwd := count_pos (i := p) (by rw [hp]; rfl)
  rw [hk.refs]
  exact add_pos_of_pos_of_nonneg (add_pos_of_nonneg_of_pos hfl hlive) (h0 task.cwd)

include hi hk h0 hp in
theorem moveFile_cases (h : σ.call p task (.moveFile src dest) = some σ') :
    Intact σ' ∧ σ'.file = σ.file ∧ σ'.proc = σ.proc ∧
      ((¬ MakesEntry σ.fs.toStore task.cwd src dest ∧ σ'.fs.toStore = σ.fs.toStore) ∨
        ∃ S D P name entries old off, Success σ.fs.toStore task.cwd src dest σ'.fs.toStore S D P name
          entries old off) := by
  unfold Sys.call at h
  split at h
  case h_1 => cases h
  case h_2 r c hrun =>
    cases h
    obtain ⟨s, hret, rfl⟩ := onFs_eq_ok (x := sysMoveFile task.cwd src dest) (c := σ.ctx task) hrun
    obtain ⟨out, hmoves, hends⟩ :=
      sysMoveFile_ends src dest hi.sound hk.unlocked (cwd_referenced hk h0 hp)
    obtain ⟨rfl, hs⟩ := hends.eq_ok hret
    have hproc : update σ.proc p (.live task) = σ.proc := by rw [← hp, update_eq_self]
    exact ⟨⟨hs, hi.closed⟩, rfl, hproc, hmoves.cases hk.unlocked⟩

include hi hk h0 hp in
theorem moveFile_covered (h : σ.call p task (.moveFile src dest) = some σ') :
    ∃ k', 0 ≤ k' ∧ (∀ i, k' i ≤ k i + 1) ∧ Covered k' σ' := by
  obtain ⟨-, hfile, hproc, ⟨-, hsame⟩ | ⟨S, D, P, name, entries, old, off, hmoved⟩⟩ :=
    moveFile_cases hi hk h0 hp h
  · refine ⟨k, h0, fun i => by omega, fun i => ?_, fun i => ?_⟩
    · rw [hfile, hproc, congrArg Store.ref hsame]
      exact hk.refs i
    · rw [congrArg Store.locked hsame]
      exact hk.unlocked i
  · have hone (i : Fin n) : (Pi.single S 1 : Fin n → Int) i ≤ 1 := by
      rw [Pi.single_apply]
      split <;> decide
    refine ⟨k + Pi.single S 1, h0.trans (le_add_single k S), fun i => Int.add_le_add_left (hone i) _,
      fun i => ?_, fun i => ?_⟩
    · rw [hfile, hproc, congrArg Store.ref hmoved.store]
      change σ.fs.ref i + _ = _
      rw [hk.refs i, add_assoc]
      rfl
    · rw [congrArg Store.locked hmoved.store]
      exact hk.unlocked i

omit h0 hk in
include hi hp in
theorem moveFile_accounted_iff (ha : Accounted σ)
    (h : σ.call p task (.moveFile src dest) = some σ') :
    Intact σ' ∧ (Accounted σ' ↔ ¬ MakesEntry σ.fs.toStore task.cwd src dest) := by
  obtain ⟨hi', hfile, hproc, hcases⟩ := moveFile_cases hi (accounted_iff.mp ha) le_rfl hp h
  refine ⟨hi', ?_⟩
  obtain ⟨hnot, hsame⟩ | ⟨S, D, P, name, entries, old, off, hmoved⟩ := hcases
  · refine iff_of_true ⟨fun i => ?_, fun i => ?_⟩ hnot
    · rw [hfile, hproc, congrArg Store.ref hsame]
      exact ha.refs i
    · rw [congrArg Store.locked hsame]
      exact ha.unlocked i
  · refine iff_of_false (fun hacc => ?_) (not_not.mpr hmoved.makesEntry)
    have hold := ha.refs S
    have hnew : σ'.fs.ref S = σ.fs.ref S + 1 := by
      rw [congrArg Store.ref hmoved.store, Store.addRef_ref_self]
      rfl
    have hS := hacc.refs S
    rw [hfile, hproc] at hS
    omega

include hi hk h0 in
theorem step_covered (h : σ.step l = some σ') :
    Intact σ' ∧ ∃ k', 0 ≤ k' ∧ (∀ i, k' i ≤ k i + if l.2.isMove then 1 else 0) ∧ Covered k' σ' := by
  obtain ⟨p, call⟩ := l
  unfold Sys.step at h
  split at h
  case h_1 task hp =>
    have hsame (hr : Intact σ' ∧ Covered k σ') : Intact σ' ∧ ∃ k', 0 ≤ k' ∧
        (∀ i, k' i ≤ k i + if call.isMove then 1 else 0) ∧ Covered k' σ' := by
      refine ⟨hr.1, k, h0, fun i => ?_, hr.2⟩
      split <;> omega
    cases call with
    | fork mem => exact hsame (fork_covered hi hk h0 hp h)
    | exit => exact hsame (exit_covered hi hk h0 hp h)
    | wait => exact hsame (wait_covered hi hk h)
    | file c =>
      by_cases hmove : ∃ src dest, c = .moveFile src dest
      · obtain ⟨src, dest, rfl⟩ := hmove
        exact ⟨(moveFile_cases hi hk h0 hp h).1, moveFile_covered hi hk h0 hp h⟩
      · exact hsame (call_covered hi hk h0 hp h fun src dest hc => hmove ⟨src, dest, hc⟩)
  case h_2 => cases h

def NoLeak (σ : Sys n) (l : Slot × Call) : Prop :=
  ∀ task src dest, σ.proc l.1 = .live task → l.2 = .file (.moveFile src dest) →
    ¬ MakesEntry σ.fs.toStore task.cwd src dest

theorem step_accounted_iff (hi : Intact σ) (ha : Accounted σ)
    (h : σ.step l = some σ') :
    Intact σ' ∧ (Accounted σ' ↔ NoLeak σ l) := by
  obtain ⟨p, call⟩ := l
  unfold Sys.step at h
  split at h
  case h_1 task hp =>
    have hk := accounted_iff.mp ha
    have hother (hr : Intact σ' ∧ Covered 0 σ') (hcall : ∀ src dest, call ≠ .file (.moveFile src dest)) :
        Intact σ' ∧ (Accounted σ' ↔ NoLeak σ (p, call)) :=
      ⟨hr.1, iff_of_true (accounted_iff.mpr hr.2) fun _ src dest _ heq => absurd heq (hcall src dest)⟩
    cases call with
    | fork mem => exact hother (fork_covered hi hk le_rfl hp h) nofun
    | exit => exact hother (exit_covered hi hk le_rfl hp h) nofun
    | wait => exact hother (wait_covered hi hk h) nofun
    | file c =>
      by_cases hmove : ∃ src dest, c = .moveFile src dest
      · obtain ⟨src, dest, rfl⟩ := hmove
        obtain ⟨hi', hiff⟩ := moveFile_accounted_iff hi hp ha h
        refine ⟨hi', hiff.trans ⟨fun hnot task' src' dest' hp' heq => ?_, fun hno => ?_⟩⟩
        · cases hp.symm.trans hp'
          cases heq
          exact hnot
        · exact hno task src dest hp rfl
      · refine hother (call_covered hi hk le_rfl hp h fun src dest hc => hmove ⟨src, dest, hc⟩) ?_
        rintro src dest heq
        cases heq
        exact hmove ⟨src, dest, rfl⟩
  case h_2 => cases h

end Steps

structure Booted [NeZero n] (σ : Sys n) : Prop where
  file : ∀ f, (σ.file f).type = .fdNone
  proc : σ.proc = update (fun _ => .unused) initproc (.live ⟨none, fun _ => none, rootino⟩)
  ref : σ.fs.ref = Pi.single rootino 1
  locked : ∀ i, σ.fs.locked i = false
  valid : ∀ i, σ.fs.valid i = false
  linked : ∀ i, σ.fs.node i ≠ .free → σ.fs.nlink i ≠ 0
  sized : ∀ i, (σ.fs.node i).entries.length ≤ maxDirents

theorem Booted.intact [NeZero n] {σ : Sys n} (h : Booted σ) : Intact σ where
  sound := by
    refine ⟨fun i => ?_, fun i hn hl => absurd hl (h.linked i hn), fun i _ hv => ?_, fun i hl => ?_,
      h.sized⟩
    · have hroot : (0 : Fin n → Int) ≤ Pi.single rootino 1 := Pi.single_nonneg.mpr zero_le_one
      rw [h.ref]
      exact hroot i
    · rw [h.valid] at hv
      cases hv
    · rw [h.locked] at hl
      cases hl
  closed f _ := by
    rw [h.file]
    exact nofun

theorem Booted.accounted [NeZero n] {σ : Sys n} (h : Booted σ) : Accounted σ where
  refs i := by
    have hfile : fileRefs σ.file i = 0 := by simp [fileRefs, count, h.file]
    have hproc : cwdRefs σ.proc = Pi.single rootino 1 := by
      have hnone : cwdRefs (fun _ : Slot => (.unused : ProcSlot n)) = 0 := by
        funext i
        simp [cwdRefs, count, ProcSlot.cwd]
      rw [h.proc, cwdRefs_update, hnone]
      simp [plus, ProcSlot.cwd]
    rw [h.ref, hfile, hproc, zero_add]
  unlocked := h.locked

theorem accounted_always_iff [NeZero n] {σ₀ σ : Sys n} {es : List (Sys n × (Slot × Call))}
    (hboot : Booted σ₀) (h : Run (fun σ l σ' => σ.step l = some σ') σ₀ es σ) :
    Run.Always Accounted es σ ↔ ∀ e ∈ es, NoLeak e.1 e.2 :=
  Run.always_iff (A := Intact)
    (fun _ _ _ hstep hi ha _ => (step_accounted_iff hi ha hstep).1)
    (fun _ _ _ hstep hi ha => (step_accounted_iff hi ha hstep).2) h hboot.intact hboot.accounted

def sampleSys : Sys 8 where
  fs := sample
  file := fun _ => ⟨.fdNone, 0, false, false, 0, 0⟩
  proc := update (fun _ => .unused) initproc (.live ⟨none, fun _ => none, rootino⟩)

theorem sampleSys_booted : Booted sampleSys where
  file _ := rfl
  proc := rfl
  ref := rfl
  locked _ := rfl
  valid _ := rfl
  linked := by decide
  sized := by decide

def sampleCalls : List (Slot × Call) :=
  [(0, .file (.openFile [102] oRdwr)), (0, .file (.dup 0)), (0, .fork true), (1, .file (.mkdir [120])),
    (1, .file (.chdir [120])), (1, .file (.link [46, 46, 47, 102] [121])), (1, .file (.unlink [121])),
    (0, .file (.close 0)), (1, .file (.exec [46, 46, 47, 102] false false)), (1, .exit), (0, .wait),
    (0, .file (.close 1))]

theorem accounted_always_iff_sample :
    let es := trace Sys.step sampleSys sampleCalls
    ∃ σ, Run (fun σ l σ' => σ.step l = some σ') sampleSys es σ ∧ Run.Always Accounted es σ := by
  intro es
  obtain ⟨σ, hrun, -⟩ := Run.of_exec_any Sys.step sampleSys sampleCalls (fun _ => true)
    (by decide +kernel)
  refine ⟨σ, hrun, (accounted_always_iff sampleSys_booted hrun).mpr fun e he => ?_⟩
  have hnone : ∀ l ∈ sampleCalls, ∀ src dest, l.2 ≠ .file (.moveFile src dest) := by simp [sampleCalls]
  exact fun _ src dest _ hmove => absurd hmove (hnone e.2 (mem_trace he) src dest)

theorem accounted_fails_after_move :
    ∃ σ, Run (fun σ l σ' => σ.step l = some σ') sampleSys
      [(sampleSys, (0, .file (.moveFile [102] [100])))] σ ∧ ¬ Accounted σ := by
  obtain ⟨σ, hstep, -⟩ := (Option.any_eq_true (p := fun _ => true) _).mp
    (show (sampleSys.step (0, .file (.moveFile [102] [100]))).any (fun _ => true) by decide +kernel)
  refine ⟨σ, .single hstep, fun hacc => ?_⟩
  have hno := (step_accounted_iff sampleSys_booted.intact sampleSys_booted.accounted hstep).2.mp hacc
  exact hno _ [102] [100] rfl rfl ⟨2, 3, by decide, by decide, by decide⟩

def moves (es : List (Sys n × (Slot × Call))) : Nat := es.countP fun e => e.2.2.isMove

/-- The process table and the file table are bounded, so that only `move_file` can take the
count of references out of the range of an `int`. -/
structure Kept (σ : Sys n) : Prop where
  sound : Sound σ.fs
  refs : ∀ i, fileRefs σ.file i + cwdRefs σ.proc i ≤ σ.fs.ref i
  range : ∀ i, σ.fs.ref i < 2 ^ 31
  unlocked : ∀ i, σ.fs.locked i = false

def Bounded (m : Nat) (σ : Sys n) : Prop :=
  Intact σ ∧ ∃ k : Fin n → Int, 0 ≤ k ∧ (∀ i, k i ≤ m) ∧ Covered k σ

theorem Bounded.mono (h : Bounded m σ) (hle : m ≤ m') : Bounded m' σ := by
  obtain ⟨hi, k, h0, hm, hk⟩ := h
  exact ⟨hi, k, h0, fun i => (hm i).trans (by exact_mod_cast hle), hk⟩

theorem step_bounded [NeZero n] {σ σ' : Sys n} (h : Bounded m σ) (hstep : σ.step l = some σ') :
    Bounded (m + if l.2.isMove then 1 else 0) σ' := by
  obtain ⟨hi, k, h0, hm, hk⟩ := h
  obtain ⟨hi', k', h0', hle, hk'⟩ := step_covered hi hk h0 hstep
  refine ⟨hi', k', h0', fun i => (hle i).trans ?_, hk'⟩
  have := hm i
  split <;> push_cast <;> omega

theorem run_bounded [NeZero n] {σ₀ σ : Sys n} (h : Run (fun σ l σ' => σ.step l = some σ') σ₀ es σ)
    (h₀ : Bounded m σ₀) : Run.Always (Bounded (m + moves es)) es σ := by
  induction h generalizing m with
  | nil => exact ⟨by simp, h₀⟩
  | @cons σ₀ l σ₁ es σ hstep _ ih =>
    have hsum : m + moves ((σ₀, l) :: es) = m + (if l.2.isMove then 1 else 0) + moves es := by
      simp only [moves, List.countP_cons]
      omega
    rw [hsum, Run.always_cons]
    exact ⟨h₀.mono (by omega), ih (step_bounded h₀ hstep)⟩

theorem Bounded.kept (h : Bounded m σ) (hm : m < 2 ^ 30) : Kept σ := by
  obtain ⟨hi, k, h0, hle, hk⟩ := h
  refine ⟨hi.sound, fun i => ?_, fun i => ?_, hk.unlocked⟩
  · rw [hk.refs i]
    exact le_add_of_nonneg_right (h0 i)
  · have hfile : fileRefs σ.file i ≤ nfile := count_le_card.trans_eq (by rw [Fintype.card_fin])
    have hproc : cwdRefs σ.proc i ≤ nproc := count_le_card.trans_eq (by rw [Fintype.card_fin])
    have hlarge : (nfile : Int) + nproc ≤ 2 ^ 30 := by decide
    have hki := hle i
    rw [hk.refs i]
    omega

theorem references_kept [NeZero n] {σ₀ σ : Sys n} {es : List (Sys n × (Slot × Call))}
    (hboot : Booted σ₀) (h : Run (fun σ l σ' => σ.step l = some σ') σ₀ es σ) (hmoves : moves es < 2 ^ 30) :
    Run.Always Kept es σ := by
  have hstart : Bounded 0 σ₀ := ⟨hboot.intact, 0, le_rfl, fun _ => le_rfl, accounted_iff.mp hboot.accounted⟩
  obtain ⟨hes, hσ⟩ := run_bounded h hstart
  rw [Nat.zero_add] at hes hσ
  exact ⟨fun e he => (hes e he).kept hmoves, hσ.kept hmoves⟩

theorem references_kept_after_move :
    let es := trace Sys.step sampleSys ((0, .file (.moveFile [102] [100])) :: sampleCalls.drop 2)
    ∃ σ, Run (fun σ l σ' => σ.step l = some σ') sampleSys es σ ∧ Run.Always Kept es σ := by
  intro es
  obtain ⟨σ, hrun, -⟩ := Run.of_exec_any Sys.step sampleSys
    ((0, .file (.moveFile [102] [100])) :: sampleCalls.drop 2) (fun _ => true) (by decide +kernel)
  exact ⟨σ, hrun, references_kept sampleSys_booted hrun (by decide +kernel)⟩

end Xv6.Fs
