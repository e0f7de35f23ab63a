import Xv6.Pipe.Code

namespace Xv6.Pipe

open Function Lib

structure Stream (d : Pipe) : Prop where
  nread : d.nread = BitVec.ofNat 32 d.delivered.length
  nwrite : d.nwrite = BitVec.ofNat 32 d.stored.length
  order : d.delivered <+: d.stored
  room : d.stored.length ≤ d.delivered.length + 512
  data : ∀ k b, d.delivered.length ≤ k → d.stored[k]? = some b → d.data (Fin.ofNat 512 k) = b

variable {d : Pipe}

theorem init_stream (data : Fin 512 → Byte) : Stream (init data) :=
  ⟨rfl, rfl, List.prefix_refl _, by simp [init], by simp [init]⟩

namespace Stream

theorem length_le (h : Stream d) : d.delivered.length ≤ d.stored.length := h.order.length_le

theorem toNat_sub (h : Stream d) : (d.nwrite - d.nread).toNat = d.stored.length - d.delivered.length := by
  have hle := h.length_le
  have hroom := h.room
  rw [h.nwrite, h.nread, BitVec.toNat_sub, BitVec.toNat_ofNat, BitVec.toNat_ofNat]
  omega

theorem full_iff (h : Stream d) : d.Full ↔ d.stored.length = d.delivered.length + 512 := by
  have hle := h.length_le
  have hroom := h.room
  rw [Full, h.nwrite, h.nread, ← BitVec.toNat_inj, BitVec.toNat_add, BitVec.toNat_ofNat, BitVec.toNat_ofNat,
    show BitVec.toNat (512 : Word) = 512 from rfl]
  omega

theorem empty_iff (h : Stream d) : d.Empty ↔ d.delivered = d.stored := by
  have hle := h.length_le
  have hroom := h.room
  rw [Empty, h.nwrite, h.nread, ← BitVec.toNat_inj, BitVec.toNat_ofNat, BitVec.toNat_ofNat]
  constructor
  · intro heq
    exact h.order.eq_of_length (by omega)
  · intro heq
    rw [heq]

theorem index (n : Nat) : Fin.ofNat 512 (BitVec.ofNat 32 n).toNat = Fin.ofNat 512 n := by
  rw [Fin.ext_iff, Fin.val_ofNat, Fin.val_ofNat, BitVec.toNat_ofNat]
  omega

theorem store (h : Stream d) (hfull : ¬d.Full) (b : Byte) : Stream (d.store b) := by
  have hlt : d.stored.length < d.delivered.length + 512 :=
    Nat.lt_of_le_of_ne h.room fun heq => hfull (h.full_iff.mpr heq)
  refine ⟨h.nread, ?_, h.order.trans (List.prefix_append _ _), ?_, fun k c hk hc => ?_⟩
  · simp only [Pipe.store, h.nwrite, List.length_append, List.length_singleton]
    rw [← BitVec.toNat_inj, BitVec.toNat_add, BitVec.toNat_ofNat, BitVec.toNat_ofNat,
      show BitVec.toNat (1 : Word) = 1 from rfl]
    omega
  · simp only [Pipe.store, List.length_append, List.length_singleton]
    omega
  · simp only [Pipe.store] at hk hc ⊢
    rw [h.nwrite, index]
    by_cases hlast : k = d.stored.length
    · subst hlast
      rw [List.getElem?_concat_length] at hc
      rw [update_self]
      exact Option.some.inj hc
    · have hkl : k < d.stored.length := by
        have hlen := (List.getElem?_eq_some_iff.mp hc).1
        rw [List.length_append, List.length_singleton] at hlen
        omega
      rw [List.getElem?_append_left hkl] at hc
      -- the byte stored now does not overwrite one that is still to be delivered
      have hne : Fin.ofNat 512 k ≠ Fin.ofNat 512 d.stored.length := by
        rw [ne_eq, Fin.ext_iff, Fin.val_ofNat, Fin.val_ofNat]
        omega
      rw [update_of_ne hne]
      exact h.data k c hk hc

theorem front (h : Stream d) (hempty : ¬d.Empty) : d.stored[d.delivered.length]? = some d.front := by
  have hlt : d.delivered.length < d.stored.length :=
    Nat.lt_of_le_of_ne h.length_le fun heq => hempty (h.empty_iff.mpr (h.order.eq_of_length heq))
  rw [List.getElem?_eq_getElem hlt, ← h.data _ _ (Nat.le_refl _) (List.getElem?_eq_getElem hlt), Pipe.front,
    h.nread, index]

theorem copy (h : Stream d) (hempty : ¬d.Empty) : Stream d.copy := by
  have hfront := h.front hempty
  have hlt : d.delivered.length < d.stored.length := (List.getElem?_eq_some_iff.mp hfront).1
  refine ⟨?_, h.nwrite, ?_, ?_, fun k c hk hc => ?_⟩
  · simp only [Pipe.copy, h.nread, List.length_append, List.length_singleton]
    rw [← BitVec.toNat_inj, BitVec.toNat_add, BitVec.toNat_ofNat, BitVec.toNat_ofNat,
      show BitVec.toNat (1 : Word) = 1 from rfl]
    omega
  · have htake : d.delivered = d.stored.take d.delivered.length := (List.prefix_iff_eq_take.mp h.order)
    simp only [Pipe.copy]
    rw [List.prefix_iff_eq_take, List.length_append, List.length_singleton, List.take_add_one, hfront, ← htake]
    rfl
  · simp only [Pipe.copy, List.length_append, List.length_singleton]
    have hroom := h.room
    omega
  · simp only [Pipe.copy, List.length_append, List.length_singleton] at hk hc ⊢
    exact h.data k c (by omega) hc

theorem shut (h : Stream d) (writable : Bool) : Stream (d.shut writable) := by
  unfold Pipe.shut
  split <;> exact ⟨h.nread, h.nwrite, h.order, h.room, h.data⟩

end Stream

def At (d : Pipe) : Pc → Prop
  | .write .check _ => d.Full
  | .write .wake _ | .write .sleep _ => d.Full ∧ d.readopen = true
  | .write .store _ => ¬d.Full
  | .read .killed _ | .read .sleep _ => d.Empty ∧ d.writeopen = true
  | .read .test r | .read .none r => r.got = [] → ¬(d.Empty ∧ d.writeopen = true)
  | .read .copy _ => ¬d.Empty
  | .read .wakeup r => 0 < r.n → r.got = [] → d.Empty ∧ d.writeopen = false
  | .read (.unlock v) r =>
    (v = -1 ∨ v = r.got.length) ∧ (0 < r.n → v = 0 → d.Empty ∧ d.writeopen = false)
  | _ => True

variable {P : Type} [DecidableEq P] {p : P} {k : Bool} {pc : P → Pc} {d' : Pipe} {l : Pc}

structure Inv (h : Option P) (d : Pipe) (pc : P → Pc) : Prop where
  stream : Stream d
  holder : ∀ p, h = some p → At d (pc p)

theorem Inv.goto (hd : Stream d) (hl : At d l) : Inv (some p) d (update pc p l) :=
  ⟨hd, fun q hq => by
    cases hq
    rwa [update_self]⟩

omit [DecidableEq P] in
theorem Inv.leave (hd : Stream d) : Inv none d pc := ⟨hd, fun _ => nofun⟩

theorem write_at (hd : Stream d) (hs : At d (.write s w))
    (h : pipewrite k d w s = .act d' l) : Stream d' ∧ At d' l := by
  cases s with
  | test =>
    cases h
    refine ⟨hd, ?_⟩
    split <;> trivial
  | full =>
    cases h
    refine ⟨hd, ?_⟩
    split
    case isTrue hfull => exact hfull
    case isFalse hfull => exact hfull
  | check =>
    cases h
    refine ⟨hd, ?_⟩
    split
    case isTrue => trivial
    case isFalse hopen => exact ⟨hs, by simpa using (not_or.mp hopen).1⟩
  | store =>
    cases h
    exact ⟨hd.store hs _, trivial⟩
  | lock | wake | sleep | wakeup | unlock v => cases h

theorem read_at (hd : Stream d) (hs : At d (.read s r))
    (h : piperead k d r s = .act d' l) : Stream d' ∧ At d' l := by
  cases s with
  | empty =>
    cases h
    refine ⟨hd, ?_⟩
    split
    case isTrue hempty => exact hempty
    case isFalse hempty => exact fun _ => hempty
  | killed =>
    cases h
    refine ⟨hd, ?_⟩
    split
    case isTrue => exact ⟨.inl rfl, fun _ hv => by cases hv⟩
    case isFalse => exact hs
  | test =>
    cases h
    refine ⟨hd, ?_⟩
    split
    case isTrue => exact hs
    case isFalse hn =>
      intro hpos hgot
      rw [hgot] at hn
      exact absurd hpos hn
  | none =>
    cases h
    refine ⟨hd, ?_⟩
    split
    case isTrue hempty =>
      exact fun _ hgot => ⟨hempty, by simpa [hempty] using hs hgot⟩
    case isFalse hempty => exact hempty
  | copy =>
    cases h
    exact ⟨hd.copy hs, fun hgot => absurd hgot (by simp)⟩
  | lock | sleep | wakeup | unlock v => cases h

theorem close_at (hd : Stream d) (h : pipeclose d w s = .act d' l) :
    Stream d' ∧ At d' l := by
  cases s with
  | flag =>
    cases h
    exact ⟨hd.shut w, trivial⟩
  | test =>
    cases h
    exact ⟨hd, trivial⟩
  | lock | wakeup | unlock free => cases h

theorem code_verified : Monitor.Verified (code : Code P Pipe Pc Chan Call) Inv where
  call {h p a d pc l} hne hinv _ := by
    refine ⟨hinv.stream, fun q hq => ?_⟩
    have hqp : q ≠ p := fun heq => hne (heq ▸ hq)
    rw [update_of_ne hqp]
    exact hinv.holder q hq
  acquire {p k d pc l} hinv hstmt := by
    refine .goto hinv.stream ?_
    rcases stmt_cases hstmt with ⟨s, w, -, hx⟩ | ⟨s, r, -, hx⟩ | ⟨s, w, -, hx⟩ <;>
    · cases s <;> cases hx
      trivial
  act {p k d pc d' l} hinv hstmt := by
    have hat := hinv.holder p rfl
    have hpost : Stream d' ∧ At d' l := by
      rcases stmt_cases hstmt with ⟨s, w, hpc, hx⟩ | ⟨s, r, hpc, hx⟩ | ⟨s, w, hpc, hx⟩
      · exact write_at hinv.stream (hpc ▸ hat) hx
      · exact read_at hinv.stream (hpc ▸ hat) hx
      · exact close_at hinv.stream hx
    exact .goto hpost.1 hpost.2
  wakeup {p k d pc c l} hinv hstmt := by
    have hat := hinv.holder p rfl
    refine .goto hinv.stream ?_
    rcases stmt_cases hstmt with ⟨s, w, hpc, hx⟩ | ⟨s, r, hpc, hx⟩ | ⟨s, w, hpc, hx⟩
    · cases s with
      | wake =>
        cases hx
        rw [hpc] at hat
        exact hat
      | wakeup =>
        cases hx
        trivial
      | lock | test | full | check | sleep | store | unlock v => cases hx
    · cases s with
      | wakeup =>
        cases hx
        rw [hpc] at hat
        exact ⟨.inr rfl, fun hpos hv => hat hpos (List.length_eq_zero_iff.mp (by exact_mod_cast hv))⟩
      | lock | empty | killed | sleep | test | none | copy | unlock v => cases hx
    · cases s with
      | wakeup =>
        cases hx
        trivial
      | lock | flag | test | unlock free => cases hx
  sleep {p k d pc c l} hinv hstmt := by
    refine ⟨.leave hinv.stream, fun d pc hd hpc => ⟨hd.stream, fun q hq => ?_⟩⟩
    cases hq
    rw [hpc]
    rcases stmt_cases hstmt with ⟨s, w, -, hx⟩ | ⟨s, r, -, hx⟩ | ⟨s, w, -, hx⟩
    · cases s <;> cases hx
      trivial
    · cases s <;> cases hx
      trivial
    · cases s <;> cases hx
  release {p k d pc d' l} hinv hstmt := by
    refine .leave ?_
    have hd := hinv.stream
    rcases stmt_cases hstmt with ⟨s, w, -, hx⟩ | ⟨s, r, -, hx⟩ | ⟨s, w, -, hx⟩ <;>
    · cases s <;> cases hx
      exact ⟨hd.nread, hd.nwrite, hd.order, hd.room, hd.data⟩

def got : Pc → List Byte
  | .read _ r => r.got
  | _ => []

def sent : Pc → List Byte
  | .write _ w => (List.range w.i).map w.addr
  | _ => []

structure Moves (d : Pipe) (l : Pc) (d' : Pipe) (l' : Pc) : Prop where
  delivered : d'.delivered = d.delivered ++ (got l').drop (got l).length
  stored : d'.stored = d.stored ++ (sent l').drop (sent l).length

theorem Moves.same (hd : d'.delivered = d.delivered) (hs : d'.stored = d.stored) (hgot : got l' = got l)
    (hsent : sent l' = sent l) : Moves d l d' l' :=
  ⟨by simp [hd, hgot], by simp [hs, hsent]⟩

theorem Moves.refl (d : Pipe) (l : Pc) : Moves d l d l := .same rfl rfl rfl rfl

def writes (p : P) (addr : Nat → Byte) (n : Nat) : List (Monitor.Act P Call) :=
  .call p (.pipewrite addr n) :: .replicate (3 * n + 4) (.go p)

def reads (p : P) (n : Nat) : List (Monitor.Act P Call) :=
  .call p (.piperead n) :: .replicate (3 * n + 5) (.go p)

end Xv6.Pipe
