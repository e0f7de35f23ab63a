import Xv6.Pipe.Stream

namespace Xv6.Pipe

open Lib

variable {P : Type}

def Ready (c : Chan) (d : Pipe) : Prop :=
  match c with
  | .nread => ¬d.Empty ∨ d.writeopen = false
  | .nwrite => ¬d.Full ∨ d.readopen = false

def Owes : Pc → Chan → Prop
  | .write .sleep _, _ => False
  | .write _ w, .nread => w.fresh = true
  | .read .test r, .nwrite | .read .none r, .nwrite | .read .copy r, .nwrite | .read .wakeup r, .nwrite =>
    r.got ≠ []
  | .close .wakeup true, .nread | .close .wakeup false, .nwrite => True
  | _, _ => False

/-- A `pipewrite` is about to return with bytes that it has not announced to the readers. -/
def Pc.unannounced : Pc → Bool
  | .write (.unlock _) w => w.fresh
  | _ => false

def AnnouncesBytes (m : Monitor P Pipe Pc Chan) : Monitor.Act P Call → Prop
  | .go p => (m.pc p).unannounced = true → ∀ q, ¬(m.status q).Waits .nread
  | _ => True

theorem write_owes (hs : At d (.write s w)) (h : pipewrite k d w s = .act d' l)
    (hready : Ready c d') (howes : Ready c d → Owes (.write s w) c) : Owes l c := by
  cases s with
  | test | full | check =>
    cases h
    have howes := howes hready
    split <;> cases c <;> exact howes
  | store =>
    cases h
    cases c with
    | nread => rfl
    | nwrite => exact (howes (.inl hs)).elim
  | lock | wake | sleep | wakeup | unlock v => cases h

theorem read_owes (hs : At d (.read s r)) (h : piperead k d r s = .act d' l)
    (hready : Ready c d') (howes : Ready c d → Owes (.read s r) c) : Owes l c := by
  cases s with
  | test | none =>
    cases h
    have howes := howes hready
    split <;> cases c <;> exact howes
  | empty | killed =>
    cases h
    exact (howes hready).elim
  | copy =>
    cases h
    cases c with
    | nread => exact (howes (.inl hs)).elim
    | nwrite => simp [Owes]
  | lock | sleep | wakeup | unlock v => cases h

theorem close_owes (h : pipeclose d w s = .act d' l) (hready : Ready c d')
    (howes : Ready c d → Owes (.close s w) c) : Owes l c := by
  cases s with
  | flag =>
    cases h
    cases w with
    | false =>
      cases c with
      | nread => exact howes hready
      | nwrite => trivial
    | true =>
      cases c with
      | nread => trivial
      | nwrite => exact howes hready
  | test =>
    cases h
    exact (howes hready).elim
  | lock | wakeup | unlock free => cases h

theorem code_wakes : Monitor.Wakes (code : Code P Pipe Pc Chan Call) Inv Ready Owes where
  act {p k d pc d' l c} hinv hstmt hready howes := by
    have hat := hinv.holder p rfl
    rcases stmt_cases hstmt with ⟨s, w, hpc, hx⟩ | ⟨s, r, hpc, hx⟩ | ⟨s, w, hpc, hx⟩
    · rw [hpc] at hat howes
      exact write_owes hat hx hready howes
    · rw [hpc] at hat howes
      exact read_owes hat hx hready howes
    · rw [hpc] at howes
      exact close_owes hx hready howes
  wakeup {p k d l c l' c'} hstmt hne howes := by
    rcases stmt_cases hstmt with ⟨s, w, rfl, hx⟩ | ⟨s, r, rfl, hx⟩ | ⟨s, w, rfl, hx⟩
    · cases s <;> cases hx <;> cases c' <;> first | exact absurd rfl hne | exact howes.elim
    · cases s <;> cases hx
      cases c' with
      | nread => exact howes.elim
      | nwrite => exact absurd rfl hne
    · cases s <;> cases hx
      cases w <;> cases c' <;> first | exact absurd rfl hne | exact howes.elim
  sleep {p k d pc c l} hinv hstmt hready := by
    have hat := hinv.holder p rfl
    rcases stmt_cases hstmt with ⟨s, w, hpc, hx⟩ | ⟨s, r, hpc, hx⟩ | ⟨s, w, hpc, hx⟩
    · cases s <;> cases hx
      rw [hpc] at hat
      rcases hready with hfull | hopen
      · exact hfull hat.1
      · exact absurd (hopen.symm.trans hat.2) nofun
    · cases s <;> cases hx
      rw [hpc] at hat
      rcases hready with hempty | hopen
      · exact hempty hat.1
      · exact absurd (hopen.symm.trans hat.2) nofun
    · cases s <;> cases hx
  release {p k d l d' l' c} hstmt hready := by
    rcases stmt_cases hstmt with ⟨s, w, -, hx⟩ | ⟨s, r, -, hx⟩ | ⟨s, w, -, hx⟩ <;>
    · cases s <;> cases hx
      exact hready

theorem settled_of_announcesBytes
    (h : AnnouncesBytes m a) : Monitor.Settled code Ready Owes m a := by
  cases a with
  | go p =>
    rintro - ⟨l, ⟨c, hstmt⟩ | ⟨d, hstmt⟩⟩ c' howes - q
    · rcases stmt_cases hstmt with ⟨s, w, hpc, hx⟩ | ⟨s, r, hpc, hx⟩ | ⟨s, w, hpc, hx⟩ <;>
      · cases s <;> cases hx <;>
        · rw [hpc] at howes
          exact howes.elim
    · rcases stmt_cases hstmt with ⟨s, w, hpc, hx⟩ | ⟨s, r, hpc, hx⟩ | ⟨s, w, hpc, hx⟩
      · cases s <;> cases hx
        rw [hpc] at howes
        cases c' with
        | nread =>
          exact h (by rw [hpc]; exact howes) q
        | nwrite => exact howes.elim
      · cases s <;> cases hx
        rw [hpc] at howes
        exact howes.elim
      · cases s <;> cases hx
        rw [hpc] at howes
        exact howes.elim
  | call | kill => trivial

def Awake (m : Monitor P Pipe Pc Chan) : Prop :=
  m.lk = none → ∀ p,
    (m.status p = .asleep .nread → m.data.Empty ∧ m.data.writeopen = true) ∧
    (m.status p = .asleep .nwrite → m.data.Full ∧ m.data.readopen = true)

theorem awake_of_noLost (hm : Monitor.Locked m)
    (hn : Monitor.NoLost Ready Owes m) : Awake m := by
  refine fun hfree p => ⟨fun hp => ?_, fun hp => ?_⟩
  · have hnot : ¬Ready .nread m.data := hn.free hm hfree (by rw [hp]; rfl : (m.status p).Waits .nread)
    simpa [Ready] using hnot
  · have hnot : ¬Ready .nwrite m.data := hn.free hm hfree (by rw [hp]; rfl : (m.status p).Waits .nwrite)
    simpa [Ready] using hnot

variable [DecidableEq P]

theorem pipe_awake {data : Fin 512 → Byte} {m : Monitor P Pipe Pc Chan}
    {es : List (Monitor P Pipe Pc Chan × Monitor.Act P Call)}
    (h : Run (Monitor.Step code) (.init (init data) .out) es m) (hc : ∀ e ∈ es, AnnouncesBytes e.1 e.2) :
    Run.Always Awake es m := by
  obtain ⟨hes, hm⟩ := Monitor.NoLost.always code_verified code_wakes (.init (.leave (init_stream data)))
    (.init _ _) h fun e he => settled_of_announcesBytes (hc e he)
  exact ⟨fun e he => awake_of_noLost (hes e he).1.locked (hes e he).2, awake_of_noLost hm.1.locked hm.2⟩

instance [Fintype P] (m : Monitor P Pipe Pc Chan) : DecidablePred (AnnouncesBytes m)
  | .go p => inferInstanceAs (Decidable ((m.pc p).unannounced = true → _))
  | .call _ _ | .kill _ => inferInstanceAs (Decidable True)

def waits (p : P) : List (Monitor.Act P Call) := .call p (.piperead 1) :: .replicate 6 (.go p)

theorem pipe_awake_reader :
    let ls := waits 0 ++ writes 1 (fun _ => 7) 3 ++ .replicate 7 (.go 0)
    let es := trace (Monitor.next code) (.init (init fun _ => 0) .out) ls
    ∃ m : Monitor Slot Pipe Pc Chan, Run (Monitor.Step code) (.init (init fun _ => 0) .out) es m ∧
      m.data.delivered = [7] ∧ Run.Always Awake es m := by
  intro ls es
  obtain ⟨m, hrun, hm⟩ := Run.of_exec_any (Monitor.next code) (.init (init fun _ => 0) .out) ls
    (fun m => decide (m.data.delivered = [7])) (by decide +kernel)
  exact ⟨m, hrun, of_decide_eq_true hm, pipe_awake hrun (by decide +kernel)⟩

theorem reader_sleeps_on_bytes :
    let ls := waits 0 ++ .call 1 (.pipewrite (fun _ => 7) 513) :: .replicate (3 * 512 + 1) (.go 1) ++
      [.kill 1] ++ .replicate 4 (.go 1)
    ∃ m : Monitor Slot Pipe Pc Chan, Run (Monitor.Step code) (.init (init fun _ => 0) .out)
      (trace (Monitor.next code) (.init (init fun _ => 0) .out) ls) m ∧ ¬Awake m := by
  intro ls
  obtain ⟨m, hrun, hm⟩ := Run.of_exec_any (Monitor.next code) (.init (init fun _ => 0) .out) ls
    (fun m => decide (m.lk = none ∧ m.status 0 = .asleep .nread ∧ m.data.nwrite = m.data.nread + 512))
    (by decide +kernel)
  obtain ⟨hfree, hasleep, hfull⟩ := of_decide_eq_true hm
  refine ⟨m, hrun, fun h => ?_⟩
  have hempty : m.data.nread = m.data.nwrite := ((h hfree 0).1 hasleep).1
  rw [hfull] at hempty
  simp at hempty

end Xv6.Pipe
