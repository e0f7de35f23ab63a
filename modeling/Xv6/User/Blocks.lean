import Mathlib.Data.Nat.Basic

namespace Xv6.Umalloc

structure Block where
  addr : Nat
  size : Nat

namespace Block

def stop (b : Block) : Nat := b.addr + 8 * b.size

def Has (b : Block) (i : Nat) : Prop := b.addr ≤ i ∧ i < b.stop

def Apart (b c : Block) : Prop := ∀ i, b.Has i → ¬ c.Has i

def Below (b c : Block) : Prop := b.stop < c.addr

structure Inside (start sz : Nat) (b : Block) : Prop where
  pos : 0 < b.size
  start_le : start ≤ b.addr
  stop_le : b.stop ≤ sz

theorem addr_le_stop (b : Block) : b.addr ≤ b.stop := Nat.le_add_right ..

theorem Inside.addr_lt (h : Inside start sz b) : b.addr < b.stop := by
  have := h.pos
  rw [stop]
  omega

theorem Inside.has (h : Inside start sz b) : b.Has b.addr := ⟨le_rfl, h.addr_lt⟩

theorem Apart.symm (h : Apart b c) : Apart c b := fun i hc hb => h i hb hc

theorem Below.lt (h : Below b c) : b.addr < c.addr := Nat.lt_of_le_of_lt b.addr_le_stop h

theorem Below.apart (h : Below b c) : Apart b c := by
  rintro i ⟨_, hb⟩ ⟨hc, _⟩
  rw [Below] at h
  omega

end Block

open Block

def join (b : Block) : List Block → List Block
  | [] => [b]
  | c :: l => if b.stop = c.addr then ⟨b.addr, b.size + c.size⟩ :: l else b :: c :: l

def Covers (l : List Block) (i : Nat) : Prop := ∃ c ∈ l, c.Has i

theorem stop_join {b c : Block} (h : b.stop = c.addr) : (Block.mk b.addr (b.size + c.size)).stop = c.stop := by
  simp only [stop] at *
  omega

theorem covers_cons : Covers (b :: l) i ↔ b.Has i ∨ Covers l i := by simp [Covers]

theorem covers_append : Covers (l ++ m) i ↔ Covers l i ∨ Covers m i := by simp [Covers, or_and_right, exists_or]

theorem covers_join : Covers (join b l) i ↔ b.Has i ∨ Covers l i := by
  cases l with
  | nil => simp [join, Covers]
  | cons c l =>
    rw [join]
    split
    case isFalse => rw [covers_cons]
    case isTrue h =>
      rw [covers_cons, covers_cons, ← or_assoc]
      refine or_congr_left ?_
      have hb := b.addr_le_stop
      have hc := c.addr_le_stop
      simp only [Has, stop_join h]
      omega

theorem addr_of_mem_join (h : d ∈ join b l) : d.addr = b.addr ∨ d ∈ l := by
  cases l with
  | nil => exact .inl (congrArg addr (List.mem_singleton.1 h))
  | cons c l =>
    rw [join] at h
    split at h <;> obtain rfl | h := List.mem_cons.1 h
    · exact .inl rfl
    · exact .inr (List.mem_cons_of_mem _ h)
    · exact .inl rfl
    · exact .inr h

theorem exists_addr_join (b : Block) (l : List Block) : ∃ q ∈ join b l, q.addr = b.addr := by
  cases l with
  | nil => exact ⟨b, List.mem_singleton_self b, rfl⟩
  | cons c l =>
    rw [join]
    split <;> exact ⟨_, List.mem_cons_self, rfl⟩

theorem pairwise_join (hl : l.Pairwise Below) (h : ∀ c ∈ l, b.stop ≤ c.addr) : (join b l).Pairwise Below := by
  cases l with
  | nil => exact List.pairwise_singleton ..
  | cons c l =>
    obtain ⟨hc, hl⟩ := List.pairwise_cons.1 hl
    rw [join]
    split
    case isTrue heq =>
      refine List.pairwise_cons.2 ⟨fun d hd => ?_, hl⟩
      rw [Below, stop_join heq]
      exact hc d hd
    case isFalse hne =>
      have hbc : b.Below c := lt_of_le_of_ne (h c List.mem_cons_self) hne
      refine List.pairwise_cons.2 ⟨List.forall_mem_cons.2 ⟨hbc, fun d hd => ?_⟩, List.pairwise_cons.2 ⟨hc, hl⟩⟩
      have hcd := hc d hd
      have := c.addr_le_stop
      rw [Below] at *
      omega

theorem inside_join (hb : b.Inside start sz) (hl : ∀ c ∈ l, c.Inside start sz) :
    ∀ c ∈ join b l, c.Inside start sz := by
  cases l with
  | nil => exact List.forall_mem_singleton.2 hb
  | cons c l =>
    rw [join]
    split
    case isTrue heq =>
      obtain ⟨hc, hl⟩ := List.forall_mem_cons.1 hl
      refine List.forall_mem_cons.2 ⟨⟨Nat.add_pos_left hb.pos _, hb.start_le, ?_⟩, hl⟩
      rw [stop_join heq]
      exact hc.stop_le
    case isFalse => exact List.forall_mem_cons.2 ⟨hb, hl⟩

theorem exists_mem_join (h : c ∈ b :: l) : ∃ d ∈ join b l, c.size ≤ d.size := by
  cases l with
  | nil => exact ⟨c, h, le_rfl⟩
  | cons d l =>
    rw [join]
    split
    · obtain rfl | h := List.mem_cons.1 h
      · exact ⟨_, List.mem_cons_self, Nat.le_add_right ..⟩
      · obtain rfl | h := List.mem_cons.1 h
        · exact ⟨_, List.mem_cons_self, Nat.le_add_left ..⟩
        · exact ⟨c, List.mem_cons_of_mem _ h, le_rfl⟩
    · exact ⟨c, h, le_rfl⟩

theorem exists_place {b : Block} (hl : (a :: l).Pairwise Below) (hab : a.stop ≤ b.addr) (hb : 0 < b.size)
    (hpos : ∀ c ∈ l, 0 < c.size) (h : ∀ i, b.Has i → ¬ Covers l i) :
    ∃ pre p post, a :: l = pre ++ p :: post ∧ p.stop ≤ b.addr ∧ ∀ c ∈ post, b.stop ≤ c.addr := by
  induction l generalizing a with
  | nil => exact ⟨[], a, [], rfl, hab, by simp⟩
  | cons c l ih =>
    by_cases hcb : c.addr ≤ b.addr
    · have hstop : c.stop ≤ b.addr := by
        by_contra hlt
        exact h b.addr ⟨le_rfl, by rw [stop]; omega⟩ ⟨c, List.mem_cons_self, hcb, by omega⟩
      obtain ⟨pre, p, post, heq, hp, hpost⟩ := ih (List.pairwise_cons.1 hl).2 hstop
        (fun d hd => hpos d (List.mem_cons_of_mem _ hd)) fun i hi hcov => h i hi (covers_cons.2 (.inr hcov))
      exact ⟨a :: pre, p, post, by rw [heq, List.cons_append], hp, hpost⟩
    · have hstop : b.stop ≤ c.addr := by
        by_contra hlt
        exact h c.addr ⟨by omega, by omega⟩
          ⟨c, List.mem_cons_self, le_rfl, by have := hpos c List.mem_cons_self; rw [stop]; omega⟩
      refine ⟨[], a, c :: l, rfl, hab, List.forall_mem_cons.2 ⟨hstop, fun d hd => ?_⟩⟩
      have hcd := (List.pairwise_cons.1 (List.pairwise_cons.1 hl).2).1 d hd
      have := c.addr_le_stop
      rw [Below] at hcd
      omega

end Xv6.Umalloc
