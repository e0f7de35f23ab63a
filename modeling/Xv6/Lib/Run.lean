import Mathlib.Data.List.Basic

universe u v

namespace Xv6.Lib

variable {S : Type u} {L : Type v}

/-- A finite run of a labelled transition relation.  Each label is listed with the
state it was taken in, so that conditions on steps can be stated over the list. -/
inductive Run (step : S → L → S → Prop) : S → List (S × L) → S → Prop
  | nil {s} : Run step s [] s
  | cons {s l t es u} : step s l t → Run step t es u → Run step s ((s, l) :: es) u

namespace Run

theorem single (h : step s l t) : Run step s [(s, l)] t := .cons h .nil

theorem append (h : Run step s es t) (h' : Run step t fs u) : Run step s (es ++ fs) u := by
  induction h with
  | nil => exact h'
  | cons hstep _ ih => exact .cons hstep (ih h')

theorem of_append (h : Run step s (es ++ fs) u) :
    ∃ t, Run step s es t ∧ Run step t fs u := by
  induction es generalizing s with
  | nil => exact ⟨s, .nil, h⟩
  | cons e es ih =>
    cases h with
    | cons hstep hrest =>
      obtain ⟨t, hes, hfs⟩ := ih hrest
      exact ⟨t, .cons hstep hes, hfs⟩

theorem of_suffix (h : Run step s es u) (hfs : e :: fs <:+ es) :
    Run step e.1 (e :: fs) u := by
  obtain ⟨gs, rfl⟩ := hfs
  obtain ⟨t, -, hrun⟩ := h.of_append
  cases hrun with
  | cons hstep hrest => exact .cons hstep hrest

def Always (P : S → Prop) (es : List (S × L)) (u : S) : Prop :=
  (∀ e ∈ es, P e.1) ∧ P u

theorem Always.start (ha : Always P es u) (h : Run step s es u) : P s := by
  cases h with
  | nil => exact ha.2
  | cons => exact ha.1 _ List.mem_cons_self

theorem Always.tail (ha : Always P (e :: es) u) : Always P es u :=
  ⟨(List.forall_mem_cons.mp ha.1).2, ha.2⟩

theorem always_cons : Always P (e :: es) u ↔ P e.1 ∧ Always P es u := by
  rw [Always, Always, List.forall_mem_cons, and_assoc]

theorem always_invariant {Inv : S → Prop} {C : S → L → Prop}
    (hstep : ∀ s l t, step s l t → C s l → Inv s → Inv t)
    (h : Run step s es u) (hok : ∀ e ∈ es, C e.1 e.2) (hs : Inv s) :
    Always Inv es u := by
  induction h with
  | nil => exact ⟨by simp, hs⟩
  | cons h _ ih =>
    obtain ⟨hhead, htail⟩ := List.forall_mem_cons.mp hok
    obtain ⟨hes, hu⟩ := ih htail (hstep _ _ _ h hhead hs)
    exact ⟨List.forall_mem_cons.mpr ⟨hs, hes⟩, hu⟩

theorem invariant {Inv : S → Prop} {C : S → L → Prop}
    (hstep : ∀ s l t, step s l t → C s l → Inv s → Inv t)
    (h : Run step s es u) (hok : ∀ e ∈ es, C e.1 e.2) (hs : Inv s) : Inv u :=
  (h.always_invariant hstep hok hs).2

theorem invariant_of_step {Inv : S → Prop} (hstep : ∀ s l t, step s l t → Inv s → Inv t)
    (h : Run step s es u) (hs : Inv s) : Inv u :=
  h.invariant (C := fun _ _ => True) (fun s l t h _ => hstep s l t h) (fun _ _ => trivial) hs

/-- When a step keeps `P` exactly if it meets `C`, a run stays inside `P` exactly if all
its steps meet `C`.  `A` is what every step keeps regardless. -/
theorem always_iff {A P : S → Prop} {C : S → L → Prop}
    (haux : ∀ s l t, step s l t → A s → P s → C s l → A t)
    (hstep : ∀ s l t, step s l t → A s → P s → (P t ↔ C s l))
    (h : Run step s es u) (ha : A s) (hs : P s) :
    Always P es u ↔ ∀ e ∈ es, C e.1 e.2 := by
  induction h with
  | nil => exact ⟨fun _ => by simp, fun _ => ⟨by simp, hs⟩⟩
  | @cons s l t es u h hrun ih =>
    rw [List.forall_mem_cons]
    constructor
    · intro halways
      have ht : P t := halways.tail.start hrun
      have hok : C s l := (hstep s l t h ha hs).mp ht
      exact ⟨hok, (ih (haux s l t h ha hs hok) ht).mp halways.tail⟩
    · rintro ⟨hok, hrest⟩
      have ht : P t := (hstep s l t h ha hs).mpr hok
      obtain ⟨hes, hu⟩ := (ih (haux s l t h ha hs hok) ht).mpr hrest
      exact ⟨List.forall_mem_cons.mpr ⟨hs, hes⟩, hu⟩

end Run

def Reaches (step : S → L → S → Prop) (s t : S) : Prop := ∃ es, Run step s es t

namespace Reaches

theorem refl (s : S) : Reaches step s s := ⟨[], .nil⟩

theorem single (h : step s l t) : Reaches step s t := ⟨_, .single h⟩

theorem trans (h : Reaches step s t) (h' : Reaches step t u) : Reaches step s u := by
  obtain ⟨es, hes⟩ := h
  obtain ⟨fs, hfs⟩ := h'
  exact ⟨_, hes.append hfs⟩

theorem head (h : step s l t) (h' : Reaches step t u) : Reaches step s u :=
  (single h).trans h'

end Reaches

/-- The end of the run that takes the given labels, if every one of them can be taken. -/
def exec (next : S → L → Option S) (s : S) : List L → Option S
  | [] => some s
  | l :: ls => (next s l).bind fun t => exec next t ls

def trace (next : S → L → Option S) (s : S) : List L → List (S × L)
  | [] => []
  | l :: ls => (s, l) :: ((next s l).map fun t => trace next t ls).getD []

theorem Run.of_exec (h : exec next s ls = some t) :
    Run (fun s l t => next s l = some t) s (trace next s ls) t := by
  induction ls generalizing s with
  | nil =>
    cases h
    exact .nil
  | cons l ls ih =>
    obtain ⟨u, hstep, hrest⟩ := Option.bind_eq_some_iff.mp h
    simp only [trace, hstep, Option.map_some, Option.getD_some]
    exact .cons hstep (ih hrest)

theorem Run.of_exec_any (next : S → L → Option S) (s : S) (ls : List L) (Q : S → Bool)
    (h : (exec next s ls).any Q) :
    ∃ t, Run (fun s l t => next s l = some t) s (trace next s ls) t ∧ Q t := by
  obtain ⟨t, ht, hQ⟩ := (Option.any_eq_true _ _).mp h
  exact ⟨t, Run.of_exec ht, hQ⟩

theorem mem_trace
    (h : e ∈ trace next s ls) : e.2 ∈ ls := by
  induction ls generalizing s with
  | nil => cases h
  | cons l ls ih =>
    rcases List.mem_cons.mp h with rfl | h
    · exact List.mem_cons_self
    · cases hnext : next s l with
      | none => simp [hnext] at h
      | some t =>
        simp only [hnext, Option.map_some, Option.getD_some] at h
        exact List.mem_cons_of_mem l (ih h)

theorem exists_split_of_lt_countP (h : n < l.countP f) :
    ∃ l₁ a l₂, l = l₁ ++ a :: l₂ ∧ f a ∧ l₁.countP f = n := by
  induction l generalizing n with
  | nil => cases h
  | cons b l ih =>
    rw [List.countP_cons] at h
    by_cases hb : f b
    · cases n with
      | zero => exact ⟨[], b, l, rfl, hb, rfl⟩
      | succ n =>
        rw [if_pos hb] at h
        obtain ⟨l₁, a, l₂, rfl, ha, hcount⟩ := ih (Nat.lt_of_succ_lt_succ h)
        exact ⟨b :: l₁, a, l₂, rfl, ha, by rw [List.countP_cons_of_pos hb, hcount]⟩
    · rw [if_neg hb] at h
      obtain ⟨l₁, a, l₂, rfl, ha, hcount⟩ := ih h
      exact ⟨b :: l₁, a, l₂, rfl, ha, by rw [List.countP_cons_of_neg hb, hcount]⟩

end Xv6.Lib
