import Xv6.Proc.Pid

namespace Xv6

open Function Lib

/-- The fields of a slot that the scheduler does not look at.  Files and directories are addresses. -/
structure Image where
  sz : Word
  ofile : Fin 16 → Option Word
  cwd : Option Word
  name : Fin 16 → Byte
  tf : Fin 19 → Word
  deriving DecidableEq

def safestrcpyFrom (t : Fin 16 → Byte) : Nat → Fin 16 → (Fin 16 → Byte) → Fin 16 → Byte
  | 0, i, s => update s i 0
  | n + 1, i, s =>
    let s := update s i (t i)
    if t i ≠ 0 then safestrcpyFrom t n (i + 1) s else update s (i + 1) 0

def safestrcpy (s t : Fin 16 → Byte) : Fin 16 → Byte := safestrcpyFrom t 15 0 s

def cstring (s : Fin 16 → Byte) : List Byte := ((List.finRange 16).map s).takeWhile (· ≠ 0)

namespace Image

def zero : Image := ⟨0, fun _ => none, none, fun _ => 0, fun _ => 0⟩

def eax : Fin 19 := 7

/-- What `fork` copies into the slot; a descriptor the parent has not open stays as it is. -/
def copyFrom (np curproc : Image) : Image where
  sz := curproc.sz
  ofile i := if (curproc.ofile i).isSome then curproc.ofile i else np.ofile i
  cwd := curproc.cwd
  name := safestrcpy np.name curproc.name
  tf := update curproc.tf eax 0

def close (x : Image) : Image := { x with ofile := fun _ => none, cwd := none }

def clearName (x : Image) : Image := { x with name := update x.name 0 0 }

def userinit (root : Word) : Image where
  sz := 4096
  ofile _ := none
  cwd := some root
  name := safestrcpy (fun _ => 0) fun i => [105, 110, 105, 116, 99, 111, 100, 101].getD i.val 0
  tf i := [0, 0, 0, 0, 0, 0, 0, 0, 0, 0, 35, 35, 0, 0, 0, 27, 512, 4096, 35].getD i.val 0

end Image

theorem takeWhile_map_congr
    (h : ∀ x ∈ l, f x = g x) (ha : f a = g a) (hP : P (f a) = false) :
    ((l ++ a :: l').map f).takeWhile P = ((l ++ a :: l').map g).takeWhile P := by
  induction l with
  | nil => simp [hP, ← ha]
  | cons x l ih =>
    have hx := h x List.mem_cons_self
    have ih := ih fun y hy => h y (List.mem_cons_of_mem x hy)
    simp only [List.cons_append, List.map_cons, List.takeWhile_cons, hx]
    split
    · rw [ih]
    · rfl

theorem cstring_eq (hsame : ∀ j ≤ m, s j = t j) (hend : s m = 0) :
    cstring s = cstring t := by
  obtain ⟨l, l', hl⟩ := List.append_of_mem (List.mem_finRange m)
  have hlt : ∀ x ∈ l, x < m := by
    have hsorted := List.pairwise_lt_finRange 16
    rw [hl, List.pairwise_append] at hsorted
    exact fun x hx => hsorted.2.2 x hx m List.mem_cons_self
  rw [cstring, cstring, hl]
  exact takeWhile_map_congr (fun x hx => hsame x (hlt x hx).le) (hsame m le_rfl) (by simp [hend])

theorem update_same_upto {s₁ s₂ : Fin 16 → Byte} {i : Fin 16} (hs : ∀ j < i, s₁ j = s₂ j) (x : Byte) :
    ∀ j ≤ i, update s₁ i x j = update s₂ i x j := by
  intro j hj
  by_cases hji : j = i
  · rw [hji, update_self, update_self]
  · rw [update_of_ne hji, update_of_ne hji, hs j (lt_of_le_of_ne hj hji)]

theorem safestrcpyFrom_same (t : Fin 16 → Byte) {n : Nat} {i : Fin 16} {s₁ s₂ : Fin 16 → Byte}
    (hn : i.val + n = 15) (hs : ∀ j < i, s₁ j = s₂ j) :
    ∃ m, (∀ j ≤ m, safestrcpyFrom t n i s₁ j = safestrcpyFrom t n i s₂ j) ∧
      safestrcpyFrom t n i s₁ m = 0 := by
  induction n generalizing i s₁ s₂ with
  | zero => exact ⟨i, update_same_upto hs 0, update_self ..⟩
  | succ n ih =>
    have hnext : (i + 1).val = i.val + 1 := by
      rw [Fin.val_add_one_of_lt (by rw [Fin.lt_def]; simp; omega)]
    have hcopied := update_same_upto hs (t i)
    simp only [safestrcpyFrom]
    split
    case isTrue =>
      refine ih (by omega) fun j hj => hcopied j ?_
      rw [Fin.lt_def] at hj
      rw [Fin.le_def]
      omega
    case isFalse hend =>
      refine ⟨i, fun j hj => ?_, ?_⟩
      · have hne : j ≠ i + 1 := by
          rintro rfl
          rw [Fin.le_def] at hj
          omega
        rw [update_of_ne hne, update_of_ne hne, hcopied j hj]
      · have hne : i ≠ i + 1 := by
          intro h
          have := congrArg Fin.val h
          omega
        rw [update_of_ne hne, update_self]
        simpa using hend

theorem cstring_safestrcpy (s₁ s₂ t : Fin 16 → Byte) :
    cstring (safestrcpy s₁ t) = cstring (safestrcpy s₂ t) := by
  have hstart : ∀ j < (0 : Fin 16), s₁ j = s₂ j := fun j hj => absurd hj (Fin.not_lt_zero j)
  obtain ⟨m, hsame, hend⟩ := safestrcpyFrom_same t (n := 15) rfl hstart
  exact cstring_eq hsame hend

structure World where
  smp : Smp
  image : Slot → Image

/-- A step of the kernel, or a process that runs changes its own memory, files, directory, name or
registers. -/
inductive Deed
  | act (a : Act)
  | edit (c : Fin ncpu) (x : Image)

namespace World

def exits (s : Smp) : Act → Option Slot
  | .exit c => s.current c
  | .timer c true => (s.kernel.cpus c).proc.filter fun p => (s.kernel.proc p).killed
  | _ => none

def copies (s : Smp) : Act → Option (Slot × Slot)
  | .copyuvm c true => do
    let p ← s.current c
    match s.ctl p with
    | .stacked np => some (p, np)
    | _ => none
  | _ => none

def images (w : World) (a : Act) : Slot → Image :=
  match exits w.smp a, copies w.smp a, Smp.waits (w.smp, a) with
  | some p, _, _ => update w.image p (w.image p).close
  | none, some (p, np), _ => update w.image np ((w.image np).copyFrom (w.image p))
  | none, none, some (_, q) => update w.image q (w.image q).clearName
  | none, none, none => w.image

def step (w : World) : Deed → Option World
  | .act a => (w.smp.step a).map fun s => ⟨s, w.images a⟩
  | .edit c x => do
    let p ← w.smp.current c
    if w.smp.ctl p = .clear then some { w with image := update w.image p x } else none

def Step (w : World) (d : Deed) (w' : World) : Prop := w.step d = some w'

def boot (root : Word) : World where
  smp := .boot
  image := update (fun _ => .zero) 0 (.userinit root)

end World

namespace Smp

variable {s t : Smp} {a : Act}

def Awake (s : Smp) : Prop :=
  ∀ q, (s.kernel.proc q).state ≠ .sleeping → (s.kernel.proc q).state ≠ .runnable →
    (s.kernel.proc q).chan = none

theorem Awake.update (hs : s.Awake)
    (hproc : t.kernel.proc = update s.kernel.proc p x)
    (hx : x.state ≠ .sleeping → x.state ≠ .runnable → x.chan = none) : t.Awake := by
  intro q hsleep hrun
  rw [hproc] at hsleep hrun ⊢
  by_cases hq : q = p
  · rw [hq, update_self] at hsleep hrun ⊢
    exact hx hsleep hrun
  · rw [update_of_ne hq] at hsleep hrun ⊢
    exact hs q hsleep hrun

theorem Change.awake (h : Change s a t) (hplaced : s.Placed) (hs : s.Awake) : t.Awake := by
  cases h with
  | pass _ hcalm _ =>
    intro q hsleep hrun
    rw [(hcalm q).chan]
    rcases (hcalm q).state with heq | ⟨-, hq⟩
    · rw [heq] at hsleep hrun
      exact hs q hsleep hrun
    · exact absurd hq hrun
  | dispatch c p _ _ _ _ hproc _ => exact hs.update hproc fun _ _ => rfl
  | yield c p ti _ hproc _ => exact hs.update hproc (by simp)
  | sleep c p chan _ _ hproc _ _ => exact hs.update hproc (by simp)
  | exit c p _ hleave hexit _ =>
    intro q hsleep hrun
    rw [hexit.chan]
    by_cases hq : q = p
    · have hrunning := hplaced.running c p hleave.here
      exact hs q (by simp [hq, hrunning]) (by simp [hq, hrunning])
    · rcases hexit.state q hq with heq | ⟨-, hq⟩
      · rw [heq] at hsleep hrun
        exact hs q hsleep hrun
      · exact absurd hq hrun
  | reap c p q _ hreaped ht =>
    obtain ⟨-, hzombie⟩ := Kernel.reaped_eq_some hreaped
    subst ht
    exact hs.update rfl fun _ _ => hs q (by simp [hzombie]) (by simp [hzombie])
  | take c p np _ hunused hkernel _ =>
    refine hs.update (by rw [hkernel]; rfl) fun _ _ => ?_
    exact hs np (by simp [hunused]) (by simp [hunused])
  | free p np hchild hkernel _ =>
    have hembryo := hplaced.embryo p np hchild
    refine hs.update (by rw [hkernel]; rfl) fun _ _ => ?_
    exact hs np (by simp [hembryo]) (by simp [hembryo])
  | setParent c p np _ hkernel _ =>
    refine hs.update (by rw [hkernel]; rfl) fun hsleep hrun => ?_
    exact hs np hsleep hrun
  | setRunnable c p np x _ hkernel _ _ => exact hs.update (by rw [hkernel]; rfl) (by simp)

theorem boot_awake : boot.Awake := by
  intro q _ _
  by_cases hq : q = 0
  · rw [hq]
    decide +kernel
  · rw [boot, boot_proc q hq]
    rfl

end Smp

namespace World

variable {w : World} {a : Act}

def Gone (s : Smp) (q : Slot) : Prop :=
  (s.kernel.proc q).state = .unused ∨ (s.kernel.proc q).state = .zombie

def Building (s : Smp) (p np : Slot) : Prop := (s.ctl p).child = some np ∧ s.ctl p ≠ .copied np

structure Closed (s : Smp) (image : Slot → Image) : Prop where
  gone : ∀ q, Gone s q → ∀ i, (image q).ofile i = none
  building : ∀ p np, Building s p np → ∀ i, (image np).ofile i = none

theorem Closed.keep {s t : Smp} {image image' : Slot → Image} (h : Closed s image)
    (hkeep : ∀ q i, (image q).ofile i = none → (image' q).ofile i = none)
    (hgone : ∀ q, Gone t q → Gone s q ∨ (∃ p, Building s p q) ∨ ∀ i, (image' q).ofile i = none)
    (hbuilding : ∀ p np, Building t p np → Building s p np ∨ Gone s np) : Closed t image' where
  gone q hq i := by
    rcases hgone q hq with hq | ⟨p, hp⟩ | hq
    · exact hkeep q i (h.gone q hq i)
    · exact hkeep q i (h.building p q hp i)
    · exact hq i
  building p np hp i := by
    rcases hbuilding p np hp with hp | hnp
    · exact hkeep np i (h.building p np hp i)
    · exact hkeep np i (h.gone np hnp i)

theorem gone_of_update
    (hproc : t.kernel.proc = update s.kernel.proc p x)
    (hx : x.state ≠ .unused ∧ x.state ≠ .zombie) (hq : Gone t q) : Gone s q := by
  rw [Gone, hproc] at hq
  by_cases hqp : q = p
  · rw [hqp, update_self] at hq
    exact absurd hq (by simp [hx])
  · rwa [update_of_ne hqp] at hq

theorem exits_of_exiting (h : s.Exiting a c p) : exits s a = some p := by
  rcases h with ⟨rfl, hp⟩ | ⟨rfl, hp, hkilled⟩
  · exact hp
  · simp [exits, hp, hkilled]

theorem copies_eq_some (h : copies s a = some (p, np)) :
    ∃ c, a = .copyuvm c true ∧ s.At c p (.stacked np) := by
  unfold copies at h
  split at h
  · obtain ⟨p', hp, h⟩ := Option.bind_eq_some_iff.mp h
    split at h
    case h_1 np' hctl =>
      cases h
      exact ⟨_, rfl, hp, hctl⟩
    case h_2 => cases h
  · cases h

theorem images_keep (hno : copies w.smp a = none) (q : Slot) (i : Fin 16)
    (h : (w.image q).ofile i = none) : (w.images a q).ofile i = none := by
  cases hexits : exits w.smp a with
  | some p =>
    simp only [images, hexits]
    by_cases hq : q = p
    · rw [hq, update_self]
      rfl
    · rwa [update_of_ne hq]
  | none =>
    cases hwaits : Smp.waits (w.smp, a) with
    | some r =>
      simp only [images, hexits, hno, hwaits]
      by_cases hq : q = r.2
      · rw [← hq, update_self]
        exact h
      · rwa [update_of_ne hq]
    | none => simpa only [images, hexits, hno, hwaits] using h

theorem images_exits (h : exits w.smp a = some p) (i : Fin 16) :
    (w.images a p).ofile i = none := by
  simp only [images, h, update_self]
  rfl

theorem building_of_update (hctl : t.ctl = update s.ctl p y)
    (hy : ∀ np, y.child = some np → y = .copied np ∨ Gone s np) (h : Building t r np) :
    Building s r np ∨ Gone s np := by
  rw [Building, hctl] at h
  by_cases hr : r = p
  · rw [hr, update_self] at h
    exact .inr ((hy np h.1).resolve_left h.2)
  · rw [update_of_ne hr] at h
    exact .inl h

theorem Closed.change {t : Smp} (h : w.smp.Change a t) (hplaced : w.smp.Placed)
    (hw : Closed w.smp w.image) (hno : copies w.smp a = none) : Closed t (w.images a) := by
  have hsame : ∀ r np, t.ctl = w.smp.ctl → Building t r np → Building w.smp r np ∨ Gone w.smp np := by
    intro r np hctl hr
    rw [Building, hctl] at hr
    exact .inl hr
  cases h with
  | pass _ hcalm hctl =>
    refine hw.keep (images_keep hno) (fun q hq => .inl ?_) fun p np hp => .inl ?_
    · rwa [Gone, (hcalm q).state_iff (by simp) (by simp), (hcalm q).state_iff (by simp) (by simp)] at hq
    · rwa [Building, (hctl p).1, ne_eq, (hctl p).2 np] at hp
  | dispatch c p _ _ _ _ hproc hctl =>
    exact hw.keep (images_keep hno) (fun q hq => .inl (gone_of_update hproc (by simp) hq))
      fun r np => hsame r np hctl
  | yield c p ti _ hproc hctl =>
    exact hw.keep (images_keep hno) (fun q hq => .inl (gone_of_update hproc (by simp) hq))
      fun r np => hsame r np hctl
  | sleep c p chan _ _ hproc _ hctl =>
    exact hw.keep (images_keep hno) (fun q hq => .inl (gone_of_update hproc (by simp) hq))
      fun r np => hsame r np hctl
  | exit c p _ _ hexit hctl hexiting =>
    refine hw.keep (images_keep hno) (fun q hq => ?_) fun r np => hsame r np hctl
    by_cases hqp : q = p
    · exact .inr (.inr (hqp ▸ images_exits (exits_of_exiting hexiting)))
    · refine .inl ?_
      rcases hexit.state q hqp with heq | ⟨-, hrunnable⟩
      · rwa [Gone, heq] at hq
      · simp [Gone, hrunnable] at hq
  | reap c p q _ hreaped ht =>
    obtain ⟨-, hzombie⟩ := Kernel.reaped_eq_some hreaped
    subst ht
    refine hw.keep (images_keep hno) (fun r hr => .inl ?_) fun r np => hsame r np rfl
    by_cases hrq : r = q
    · exact .inr (hrq ▸ hzombie)
    · rwa [Gone, Kernel.setProc_of_ne _ _ hrq] at hr
  | take c p np _ hunused hkernel hctl =>
    have hproc : t.kernel.proc = update w.smp.kernel.proc np
        { (w.smp.kernel.proc np).clearUsedSyscalls with
          state := .embryo, pid := w.smp.kernel.nextpid } := by
      rw [hkernel]
      rfl
    refine hw.keep (images_keep hno) (fun q hq => .inl (gone_of_update hproc (by simp) hq))
      fun r np' => building_of_update hctl fun np' hnp' => .inr (.inl ?_)
    cases hnp'
    exact hunused
  | free p np hchild hkernel hctl hcopied =>
    refine hw.keep (images_keep hno) (fun q hq => ?_) fun r np' => building_of_update hctl (by simp [Ctl.child])
    by_cases hqnp : q = np
    · exact .inr (.inl ⟨p, hqnp ▸ ⟨hchild, hcopied⟩⟩)
    · rw [Gone, hkernel, Kernel.freeSlot, Kernel.setProc_of_ne _ _ hqnp] at hq
      exact .inl hq
  | setParent c p np hat hkernel hctl =>
    have hembryo := hplaced.embryo p np (by rw [hat.2]; rfl)
    have hproc : t.kernel.proc = update w.smp.kernel.proc np
        { w.smp.kernel.proc np with parent := some p } := by
      rw [hkernel]
      rfl
    refine hw.keep (images_keep hno) (fun q hq => .inl (gone_of_update hproc (by simp [hembryo]) hq))
      fun r np' => building_of_update hctl fun np' hnp' => .inl ?_
    cases hnp'
    rfl
  | setRunnable c p np x hat hkernel hx hctl =>
    have hproc : t.kernel.proc = update w.smp.kernel.proc np
        { w.smp.kernel.proc np with state := .runnable } := by
      rw [hkernel]
      rfl
    exact hw.keep (images_keep hno) (fun q hq => .inl (gone_of_update hproc (by simp) hq))
      fun r np' => building_of_update hctl (by simp [hx])

theorem Closed.copy (h : w.smp.Step a t) (hplaced : w.smp.Placed)
    (hw : Closed w.smp w.image) (hcopies : copies w.smp a = some (p, np)) : Closed t (w.images a) := by
  obtain ⟨c, rfl, hat⟩ := copies_eq_some hcopies
  obtain rfl : ({ w.smp with kernel := w.smp.kernel.setParent np p }.setCtl p (.copied np)) = t := by
    simpa [Smp.Step, Smp.step, hat.1, hat.2] using h
  have hchild : (w.smp.ctl p).child = some np := by
    rw [hat.2]
    rfl
  have hembryo := hplaced.embryo p np hchild
  have himages : ∀ q, q ≠ np → w.images (.copyuvm c true) q = w.image q := by
    intro q hq
    simp only [images, exits, hcopies, update_of_ne hq]
  refine ⟨fun q hq i => ?_, fun r np' hr i => ?_⟩
  · have hq' : Gone w.smp q := gone_of_update (p := np) rfl (by simp [hembryo]) hq
    have hne : q ≠ np := by
      rintro rfl
      simp [Gone, hembryo] at hq'
    rw [himages q hne]
    exact hw.gone q hq' i
  · by_cases hrp : r = p
    · simp [Building, Smp.setCtl, hrp, Ctl.child] at hr
    · simp only [Building, Smp.setCtl, update_of_ne hrp] at hr
      have hne : np' ≠ np := by
        rintro rfl
        exact hrp (hplaced.own r p np' hr.1 hchild)
      rw [himages np' hne]
      exact hw.building r np' hr i

structure Tidy (w : World) : Prop where
  placed : w.smp.Placed
  awake : w.smp.Awake
  closed : Closed w.smp w.image

theorem Step.tidy (h : Step w d w') (hw : w.Tidy) : w'.Tidy := by
  cases d with
  | act a =>
    obtain ⟨t, ht, rfl⟩ := Option.map_eq_some_iff.mp h
    have hchange := (show w.smp.Step a t from ht).did.change
    refine ⟨hchange.placed hw.placed, hchange.awake hw.placed hw.awake, ?_⟩
    cases hcopies : copies w.smp a with
    | none => exact hw.closed.change hchange hw.placed hcopies
    | some r => exact hw.closed.copy ht hw.placed hcopies
  | edit c x =>
    obtain ⟨p, hp, h⟩ := Option.bind_eq_some_iff.mp h
    split at h
    case isFalse => cases h
    case isTrue =>
      cases h
      have hrunning := hw.placed.running c p (Smp.current_proc hp)
      refine ⟨hw.placed, hw.awake, fun q hq i => ?_, fun r np hr i => ?_⟩
      · have hne : q ≠ p := by
          rintro rfl
          simp [Gone, hrunning] at hq
        simpa [update_of_ne hne] using hw.closed.gone q hq i
      · have hne : np ≠ p := by
          rintro rfl
          have := hw.placed.embryo r np hr.1
          rw [hrunning] at this
          cases this
        simpa [update_of_ne hne] using hw.closed.building r np hr i

theorem boot_tidy (root : Word) : (boot root).Tidy := by
  refine ⟨Smp.boot_placed, Smp.boot_awake, fun q _ i => ?_, fun p np hp => ?_⟩
  · by_cases hq : q = 0
    · subst hq
      rfl
    · simp only [boot, update_of_ne hq]
      rfl
  · cases hp.1

theorem tidy_run (h : Run Step (boot root) es w) : w.Tidy :=
  h.invariant_of_step (fun _ _ _ h => h.tidy) (boot_tidy root)

end World

namespace Kernel

variable {k : Kernel} {p np : Slot}

def FirstTwo (k : Kernel) (np : Slot) : Prop := k.nextpid = 2 ∧ ∀ q < np, (k.proc q).pid ≠ 2

instance (k : Kernel) (np : Slot) : Decidable (k.FirstTwo np) := inferInstanceAs (Decidable (_ ∧ _))

theorem changeQueue_proc (k : Kernel) (pid target : Word) (np : Slot) :
    (k.changeQueue pid target).proc np =
      if k.getProcByPid pid = some np then
        { k.proc np with ti := { (k.proc np).ti with queue := target, enterQueueTime := k.ticks } }
      else k.proc np := by
  unfold changeQueue
  split
  case h_1 q hq =>
    rw [hq]
    by_cases hnp : np = q
    · rw [if_pos (by rw [hnp]), hnp, setProc_self]
    · rw [if_neg (by simpa using Ne.symm hnp), setProc_of_ne _ _ hnp]
  case h_2 hq => rw [hq, if_neg (by simp)]

def child (k : Kernel) (np p : Slot) : Proc :=
  { (k.proc np).clearUsedSyscalls with
    state := .runnable, pid := k.nextpid, parent := some p, ti := .init k.ticks }

theorem fork_eq (h : (k.allocproc true).1 = some np) :
    (k.proc np).state = .unused ∧ ∃ k₁ : Kernel, k₁.proc = update k.proc np (k.child np p) ∧
      k₁.ticks = k.ticks ∧
      k.fork p true true = if k.nextpid = 2 then k₁.changeQueue k.nextpid Level.rr.code else k₁ := by
  cases hfind : (List.finRange nproc).find? fun p => (k.proc p).state == .unused with
  | none => simp [allocproc, hfind] at h
  | some q =>
    obtain rfl : q = np := by simpa [allocproc, hfind] using h
    refine ⟨by simpa using List.find?_some hfind,
      { k with nextpid := k.nextpid + 1 }.setProc q (k.child q p), rfl, rfl, ?_⟩
    simp only [fork, allocproc, hfind, if_true, setProc_self, setProc_setProc]
    rfl

theorem fork_child (h : (k.allocproc true).1 = some np) :
    (k.proc np).state = .unused ∧ (k.fork p true true).proc np =
      { k.child np p with
        ti := if k.FirstTwo np then
            { TimeInfo.init k.ticks with queue := Level.rr.code, enterQueueTime := k.ticks }
          else .init k.ticks } := by
  obtain ⟨hunused, k₁, hproc, hticks, hfork⟩ := fork_eq (p := p) h
  have hself : k₁.proc np = k.child np p := by rw [hproc, update_self]
  have hfind : k₁.getProcByPid 2 = some np ↔ k.FirstTwo np := by
    rw [getProcByPid_eq_some_iff, hself, FirstTwo]
    refine and_congr .rfl (forall₂_congr fun q hq => ?_)
    rw [hproc, update_of_ne hq.ne]
  refine ⟨hunused, ?_⟩
  rw [hfork]
  by_cases htwo : k.nextpid = 2
  · rw [if_pos htwo, changeQueue_proc, htwo, hself, hticks]
    simp only [hfind]
    split <;> rfl
  · rw [if_neg htwo, hself, if_neg fun h => htwo h.1]
    rfl

end Kernel

structure Alike (x y : Proc × Image) : Prop where
  killed : x.1.killed = y.1.killed
  chan : x.1.chan = y.1.chan
  parent : x.1.parent = y.1.parent
  usedSyscalls : x.1.usedSyscalls = y.1.usedSyscalls
  ti : x.1.ti = y.1.ti
  ofile : x.2.ofile = y.2.ofile
  cwd : x.2.cwd = y.2.cwd
  name : cstring x.2.name = cstring y.2.name
  sz : x.2.sz = y.2.sz
  tf : x.2.tf = y.2.tf

namespace World

variable {w₁ w₂ : World} {root : Word} {p np₁ np₂ : Slot} {es₁ es₂ : List (World × Deed)}

def forkChild (w : World) (p np : Slot) : Proc × Image :=
  ((w.smp.kernel.fork p true true).proc np, (w.image np).copyFrom (w.image p))

theorem Closed.copyFrom_ofile {s : Smp} {image : Slot → Image} {x : Image} (h : Closed s image)
    (hnp : (s.kernel.proc np).state = .unused) : ((image np).copyFrom x).ofile = x.ofile := by
  funext i
  simp only [Image.copyFrom]
  split
  case isTrue => rfl
  case isFalse hnone =>
    rw [h.gone np (.inl hnp) i]
    simpa using Eq.symm (Option.not_isSome_iff_eq_none.mp hnone)

theorem init_ti_inj (ticks : Word) (P Q : Prop) [Decidable P] [Decidable Q] :
    (if P then { TimeInfo.init ticks with queue := Level.rr.code, enterQueueTime := ticks }
      else TimeInfo.init ticks) =
      (if Q then { TimeInfo.init ticks with queue := Level.rr.code, enterQueueTime := ticks }
      else TimeInfo.init ticks) ↔ (P ↔ Q) := by
  by_cases hP : P <;> by_cases hQ : Q <;> simp [hP, hQ, TimeInfo.init]

theorem Tidy.alike_iff (hw₁ : w₁.Tidy) (hw₂ : w₂.Tidy)
    (himage : w₁.image p = w₂.image p) (hticks : w₁.smp.kernel.ticks = w₂.smp.kernel.ticks)
    (hnp₁ : (w₁.smp.kernel.allocproc true).1 = some np₁)
    (hnp₂ : (w₂.smp.kernel.allocproc true).1 = some np₂) :
    Alike (w₁.forkChild p np₁) (w₂.forkChild p np₂) ↔
      (w₁.smp.kernel.proc np₁).killed = (w₂.smp.kernel.proc np₂).killed ∧
        (w₁.smp.kernel.FirstTwo np₁ ↔ w₂.smp.kernel.FirstTwo np₂) := by
  obtain ⟨hunused₁, hchild₁⟩ := Kernel.fork_child (p := p) hnp₁
  obtain ⟨hunused₂, hchild₂⟩ := Kernel.fork_child (p := p) hnp₂
  have hti : ((w₁.smp.kernel.fork p true true).proc np₁).ti =
      ((w₂.smp.kernel.fork p true true).proc np₂).ti ↔
        (w₁.smp.kernel.FirstTwo np₁ ↔ w₂.smp.kernel.FirstTwo np₂) := by
    rw [hchild₁, hchild₂, hticks]
    exact init_ti_inj ..
  constructor
  · intro h
    refine ⟨?_, hti.mp h.ti⟩
    have := h.killed
    simpa only [forkChild, hchild₁, hchild₂, Kernel.child, Proc.clearUsedSyscalls] using this
  · rintro ⟨hkilled, hfirst⟩
    refine ⟨?_, ?_, ?_, ?_, hti.mpr hfirst, ?_, ?_, ?_, ?_, ?_⟩
    · simpa only [forkChild, hchild₁, hchild₂, Kernel.child, Proc.clearUsedSyscalls] using hkilled
    · have hchan₁ := hw₁.awake np₁ (by simp [hunused₁]) (by simp [hunused₁])
      have hchan₂ := hw₂.awake np₂ (by simp [hunused₂]) (by simp [hunused₂])
      simp only [forkChild, hchild₁, hchild₂]
      exact hchan₁.trans hchan₂.symm
    · simp only [forkChild, hchild₁, hchild₂, Kernel.child]
    · simp only [forkChild, hchild₁, hchild₂, Kernel.child, Proc.clearUsedSyscalls]
    · simp only [forkChild, hw₁.closed.copyFrom_ofile hunused₁, hw₂.closed.copyFrom_ofile hunused₂, himage]
    · simp only [forkChild, himage, Image.copyFrom]
    · simp only [forkChild, himage, Image.copyFrom]
      exact cstring_safestrcpy _ _ _
    · simp only [forkChild, himage, Image.copyFrom]
    · simp only [forkChild, himage, Image.copyFrom]

theorem fork_alike_iff (h₁ : Run Step (boot root) es₁ w₁) (h₂ : Run Step (boot root) es₂ w₂)
    (himage : w₁.image p = w₂.image p) (hticks : w₁.smp.kernel.ticks = w₂.smp.kernel.ticks)
    (hnp₁ : (w₁.smp.kernel.allocproc true).1 = some np₁)
    (hnp₂ : (w₂.smp.kernel.allocproc true).1 = some np₂) :
    Alike (w₁.forkChild p np₁) (w₂.forkChild p np₂) ↔
      (w₁.smp.kernel.proc np₁).killed = (w₂.smp.kernel.proc np₂).killed ∧
        (w₁.smp.kernel.FirstTwo np₁ ↔ w₂.smp.kernel.FirstTwo np₂) :=
  (tidy_run h₁).alike_iff (tidy_run h₂) himage hticks hnp₁ hnp₂

theorem fork_alike_of_reused :
    ∃ (es₁ es₂ : List (World × Deed)) (w₁ w₂ : World),
      Run Step (boot 0) es₁ w₁ ∧ Run Step (boot 0) es₂ w₂ ∧
        w₁.smp.kernel.nextpid = w₂.smp.kernel.nextpid ∧ Alike (w₁.forkChild 0 1) (w₂.forkChild 0 1) := by
  obtain ⟨w₁, hrun₁, h₁⟩ := Run.of_exec_any step (boot 0) [.act (.schedule 1), .act (.schedule 1),
      .act (.allocproc 1), .act (.kstack 1 true), .act (.copyuvm 1 true), .act (.runnable 1),
      .act (.getProcByPid 1 2 Level.rr.code), .act (.changeQueue 1), .act (.schedule 2),
      .act (.schedule 2), .act (.exit 2), .act (.wait 1)]
    (fun w => decide (w.image 0 = .userinit 0 ∧ w.smp.kernel.ticks = 0 ∧ w.smp.kernel.nextpid = 3 ∧
      (w.smp.kernel.allocproc true).1 = some 1 ∧ (w.smp.kernel.proc 1).killed = false)) (by decide +kernel)
  obtain ⟨w₂, hrun₂, h₂⟩ := Run.of_exec_any step (boot 0) [.act (.schedule 1), .act (.schedule 1),
      .act (.allocproc 1), .act (.kstack 1 false)]
    (fun w => decide (w.image 0 = .userinit 0 ∧ w.smp.kernel.ticks = 0 ∧ w.smp.kernel.nextpid = 3 ∧
      (w.smp.kernel.allocproc true).1 = some 1 ∧ (w.smp.kernel.proc 1).killed = false)) (by decide +kernel)
  simp only [decide_eq_true_eq] at h₁ h₂
  obtain ⟨himage₁, hticks₁, hnext₁, hnp₁, hkilled₁⟩ := h₁
  obtain ⟨himage₂, hticks₂, hnext₂, hnp₂, hkilled₂⟩ := h₂
  refine ⟨_, _, w₁, w₂, hrun₁, hrun₂, hnext₁.trans hnext₂.symm, ?_⟩
  refine (fork_alike_iff hrun₁ hrun₂ (himage₁.trans himage₂.symm) (hticks₁.trans hticks₂.symm) hnp₁ hnp₂).mpr
    ⟨hkilled₁.trans hkilled₂.symm, ?_⟩
  simp [Kernel.FirstTwo, hnext₁, hnext₂]

theorem fork_not_alike_of_kill :
    ∃ (es₁ es₂ : List (World × Deed)) (w₁ w₂ : World),
      Run Step (boot 0) es₁ w₁ ∧ Run Step (boot 0) es₂ w₂ ∧
        w₁.smp.kernel.proc 0 = w₂.smp.kernel.proc 0 ∧ w₁.image 0 = w₂.image 0 ∧
        w₁.smp.kernel.nextpid = w₂.smp.kernel.nextpid ∧ w₁.smp.kernel.ticks = w₂.smp.kernel.ticks ∧
        (w₁.smp.kernel.allocproc true).1 = some 1 ∧ (w₂.smp.kernel.allocproc true).1 = some 1 ∧
        ¬ Alike (w₁.forkChild 0 1) (w₂.forkChild 0 1) := by
  obtain ⟨w, hrun, h⟩ := Run.of_exec_any step (boot 0) [.act (.schedule 1), .act (.schedule 1)]
    (fun w => (step w (.act (.kill 0))).any fun w' : World =>
      decide (w.smp.kernel.proc 0 = w'.smp.kernel.proc 0 ∧ w.image 0 = w'.image 0 ∧
        w.smp.kernel.nextpid = w'.smp.kernel.nextpid ∧ w.smp.kernel.ticks = w'.smp.kernel.ticks ∧
        (w.smp.kernel.allocproc true).1 = some 1 ∧ (w'.smp.kernel.allocproc true).1 = some 1 ∧
        (w.forkChild 0 1).1.killed ≠ (w'.forkChild 0 1).1.killed)) (by decide +kernel)
  simp only [Option.any_eq_true, decide_eq_true_eq] at h
  obtain ⟨w', hstep, hproc, himage, hnext, hticks, hnp, hnp', hkilled⟩ := h
  exact ⟨_, _, w, w', hrun, hrun.append (.single hstep), hproc, himage, hnext, hticks, hnp, hnp',
    fun halike => hkilled halike.killed⟩

end World

end Xv6
