import Xv6.Disk.Bytes
import Xv6.Lib.Trace
import Mathlib.Order.Interval.Finset.Nat

namespace Xv6.Disk.Logged

open Lib Prog

variable {sb : Superblock}

/-- The store, and what `log_write` has been called with since `begin_op`, the last block first. -/
abbrev L (sb : Superblock) (α : Type) := Prog (Store sb × List Word) Panic α

def logWrite (b : Word) : L sb Unit := record b

def load : L sb (Store sb) := onState get

def store (s : Store sb) : L sb Unit := onState (set s)

def balloc : L sb Word := do
  let b ← onState Disk.balloc
  logWrite (sb.bblock b.toNat)
  logWrite b
  return b

def loadAddr (i : Fin sb.ninodes) (k : Fin 13) : L sb Word := do
  let s ← load
  if (s.inode i).addrs k = 0 then do
    let addr ← balloc
    let s ← load
    store (s.setAddr i k addr)
    return addr
  else return (s.inode i).addrs k

def loadEntry (b : Word) (j : Fin 128) : L sb Word := do
  let s ← load
  if (s.disk b).word j = 0 then do
    let addr ← balloc
    let s ← load
    store (s.setBlock b ((s.disk b).setWord j addr))
    logWrite b
    return addr
  else return (s.disk b).word j

def bmap (i : Fin sb.ninodes) (bn : Nat) : L sb Word :=
  if h : bn < 12 then loadAddr i ⟨bn, Nat.lt_succ_of_lt h⟩
  else if h : bn - 12 < 128 then do
    let b ← loadAddr i 12
    loadEntry b ⟨bn - 12, h⟩
  else throw .outOfRange

def iupdate (i : Fin sb.ninodes) : L sb Unit := do
  onState (Disk.iupdate i)
  logWrite (sb.iblock i)

def writeLoop (i : Fin sb.ninodes) : Nat → (Nat → Byte) → Nat → Nat → L sb Unit
  | 0, _, _, _ => return ()
  | fuel + 1, src, off, n =>
    if n = 0 then return ()
    else do
      let b ← bmap i (off / 512)
      let s ← load
      store (s.setBlock b (splice (s.disk b) (off % 512) (min n (512 - off % 512)) src))
      logWrite b
      writeLoop i fuel (fun k => src (k + min n (512 - off % 512))) (off + min n (512 - off % 512))
        (n - min n (512 - off % 512))

def writei (i : Fin sb.ninodes) (src : Nat → Byte) (off n : Word) : L sb (Option Word) := do
  let s ← load
  if (s.inode i).type = 3 ∨ (s.inode i).size < off ∨ off + n < off ∨ 140 * 512 < off + n then return none
  else do
    writeLoop i n.toNat src off.toNat n.toNat
    let s ← load
    if 0 < n ∧ (s.inode i).size < off + n then do
      store (s.setInode i { s.inode i with size := off + n })
      iupdate i
      return some n
    else return some n

def maxOpBlocks : Nat := 10

def maxChunk : Nat := (maxOpBlocks - 1 - 1 - 2) / 2 * 512

/-- What `filewrite` does between `begin_op` and `end_op`. -/
def writeChunk (i : Fin sb.ninodes) (src : Nat → Byte) (off n : Word) : L sb (Option Word) := do
  onState (ilock i)
  writei i src off n

section erases

variable {i : Fin sb.ninodes}

theorem erases_balloc : Erases (balloc : L sb Word) Disk.balloc := by
  have h := (Erases.onState (τ := List Word) (y := (Disk.balloc : M sb Word))).bind (g := Pure.pure)
    fun b => Erases.record (b := sb.bblock b.toNat) (Erases.record (b := b) (Erases.pure (a := b)))
  rwa [bind_pure] at h

theorem erases_loadAddr (k : Fin 13) : Erases (loadAddr i k) (Disk.loadAddr i k) := by
  refine Erases.onState.bind fun s => Erases.ite ?_ Erases.pure
  exact erases_balloc.bind fun b => Erases.onState.bind fun s => Erases.onState.bind fun _ => Erases.pure

theorem erases_loadEntry (b : Word) (j : Fin 128) : Erases (loadEntry b j : L sb Word) (Disk.loadEntry b j) := by
  refine Erases.onState.bind fun s => Erases.ite ?_ Erases.pure
  exact erases_balloc.bind fun b => Erases.onState.bind fun s => Erases.onState.bind fun _ => Erases.record Erases.pure

theorem erases_bmap (bn : Nat) : Erases (bmap i bn) (Disk.bmap i bn) := by
  unfold bmap Disk.bmap
  split
  · exact erases_loadAddr _
  · split
    · exact (erases_loadAddr 12).bind fun b => erases_loadEntry b _
    · exact Erases.throw

theorem erases_writeLoop (fuel : Nat) (src : Nat → Byte) (off n : Nat) :
    Erases (writeLoop i fuel src off n) (Disk.writeLoop i fuel src off n) := by
  induction fuel generalizing src off n with
  | zero => exact Erases.pure
  | succ fuel ih =>
    unfold writeLoop Disk.writeLoop
    refine Erases.ite Erases.pure ?_
    exact (erases_bmap _).bind fun b => Erases.onState.bind fun s => Erases.onState.bind fun _ => Erases.record (ih _ _ _)

theorem erases_iupdate : Erases (iupdate i) (Disk.iupdate i) := by
  have h := (Erases.onState (τ := List Word) (y := Disk.iupdate i)).bind (g := Pure.pure)
    fun _ => Erases.record (b := sb.iblock i) (Erases.pure (a := PUnit.unit))
  rwa [bind_pure] at h

theorem erases_writei (src : Nat → Byte) (off n : Word) : Erases (writei i src off n) (Disk.writei i src off n) := by
  refine Erases.onState.bind fun s => Erases.ite Erases.pure ?_
  refine (erases_writeLoop _ _ _ _).bind fun _ => Erases.onState.bind fun s => Erases.ite ?_ Erases.pure
  exact Erases.onState.bind fun _ => erases_iupdate.bind fun _ => Erases.pure

end erases

section counts

variable {live B : Fin sb.ninodes → Prop} {i : Fin sb.ninodes} {s t : Store sb} {l : List Word} {α : Type}
  {needed : Finset (Slot sb.ninodes)}

theorem load_ends (h : Finishes E (f s) (s, l) R) : Finishes E (load >>= f) (s, l) R := h

theorem store_ends (h : Finishes E (f ⟨⟩) (t, l) R) : Finishes E (store t >>= f) (s, l) R := h

theorem balloc_logs (h : s.OwnsOn (slots live)) :
    Finishes (fun _ => True) balloc (s, l) fun b p =>
      p.1.freeCount + 1 = s.freeCount ∧ Took s (slots live) b p.1 ∧ p.2 = b :: sb.bblock b.toNat :: l := by
  have hballoc : Finishes (fun _ => True) Disk.balloc s fun b t => t.freeCount + 1 = s.freeCount ∧ Took s (slots live) b t := by
    rcases Nat.eq_zero_or_pos s.freeCount with hfree | hfree
    · rw [Finishes, balloc_full hfree]
      trivial
    · obtain ⟨b, t, hrun, ht, hcount, -⟩ := balloc_run h hfree
      rw [Finishes, hrun]
      exact ⟨hcount, ht⟩
  refine Finishes.onState hballoc ?_
  rintro b t ⟨hcount, ht⟩
  exact Finishes.record (Finishes.record (.pure ⟨hcount, ht, rfl⟩))

theorem loadAddr_logs (h : Work live B (slots live) i s) (k : Fin 13) :
    Finishes (fun _ => True) (loadAddr i k) (s, l) fun b p =>
      ∃ X : Finset Word, X.card + p.1.freeCount ≤ s.freeCount ∧ ∀ c ∈ p.2, c ∈ l ∨ c ∈ X ∨ c = b := by
  refine load_ends ?_
  split
  · refine (balloc_logs h.owns).bind ?_
    rintro b ⟨t, _⟩ ⟨hcount, -, rfl⟩
    refine load_ends (store_ends (.pure ⟨{sb.bblock b.toNat}, ?_, fun c hc => ?_⟩))
    · have hsame : (t.setAddr i k b).freeCount = t.freeCount := rfl
      rw [Finset.card_singleton, hsame]
      dsimp only at hcount
      omega
    · rcases List.mem_cons.mp hc with rfl | hc
      · exact .inr (.inr rfl)
      · rcases List.mem_cons.mp hc with rfl | hc
        · exact .inr (.inl (Finset.mem_singleton_self _))
        · exact .inl hc
  · refine .pure ⟨∅, ?_, fun c hc => .inl hc⟩
    rw [Finset.card_empty, Nat.zero_add]

theorem loadEntry_logs (h : Work live B (slots live) i s) (hb : s.num (.addr i 12) = b) (hne : b ≠ 0)
    (j : Fin 128) :
    Finishes (fun _ => True) (loadEntry b j) (s, l) fun c p =>
      ∃ X : Finset Word, X.card + p.1.freeCount ≤ s.freeCount ∧ ∀ d ∈ p.2, d ∈ l ∨ d ∈ X ∨ d = c ∨ d = b := by
  have hin : sb.InData b := hb ▸ h.owns.inArea (.addr i 12) h.live_self (hb.symm ▸ hne)
  refine load_ends ?_
  split
  · refine (balloc_logs h.owns).bind ?_
    rintro c ⟨t, _⟩ ⟨hcount, -, rfl⟩
    refine load_ends (store_ends (Finishes.record (.pure ⟨{sb.bblock c.toNat}, ?_, fun d hd => ?_⟩)))
    · rw [Finset.card_singleton, Store.freeCount_setBlock hin]
      dsimp only at hcount
      omega
    · rcases List.mem_cons.mp hd with rfl | hd
      · exact .inr (.inr (.inr rfl))
      rcases List.mem_cons.mp hd with rfl | hd
      · exact .inr (.inr (.inl rfl))
      rcases List.mem_cons.mp hd with rfl | hd
      · exact .inr (.inl (Finset.mem_singleton_self _))
      · exact .inl hd
  · refine .pure ⟨∅, ?_, fun d hd => .inl hd⟩
    rw [Finset.card_empty, Nat.zero_add]

def Logs (i : Fin sb.ninodes) (n : Nat) (s : Store sb) (l : List Word) (t : Store sb) (l' : List Word) : Prop :=
  ∃ X : Finset Word, X.card + t.freeCount ≤ s.freeCount + n ∧
    ∀ b ∈ l', b ∈ l ∨ b ∈ X ∨ b ≠ 0 ∧ t.num (.addr i 12) = b

theorem Logs.refl : Logs i n s l s l :=
  ⟨∅, by rw [Finset.card_empty]; omega, fun _ hb => .inl hb⟩

theorem Logs.trans (h : Logs i m s l t l') (h' : Logs i n t l' u l'')
    (hkept : t.num (.addr i 12) ≠ 0 → u.num (.addr i 12) = t.num (.addr i 12)) : Logs i (m + n) s l u l'' := by
  obtain ⟨X, hX, hl'⟩ := h
  obtain ⟨Y, hY, hl''⟩ := h'
  refine ⟨X ∪ Y, ?_, fun b hb => ?_⟩
  · have := Finset.card_union_le X Y
    omega
  rcases hl'' b hb with hb | hb | hb
  · rcases hl' b hb with hb | hb | ⟨hne, hb⟩
    · exact .inl hb
    · exact .inr (.inl (Finset.mem_union_left Y hb))
    · exact .inr (.inr ⟨hne, (hkept (hb ▸ hne)).trans hb⟩)
  · exact .inr (.inl (Finset.mem_union_right X hb))
  · exact .inr (.inr hb)

theorem bmap_logs (h : Work live B (slots live) i s) :
    Finishes (fun _ => True) (bmap i bn) (s, l) fun b p => Logs i 1 s l p.1 (b :: p.2) := by
  have hlast : ∀ {t : Store sb} {l' : List Word} {b : Word} {X : Finset Word}, X.card + t.freeCount ≤ s.freeCount →
      (∀ c ∈ l', c ∈ l ∨ c ∈ X ∨ c = b ∨ c ≠ 0 ∧ t.num (.addr i 12) = c) → Logs i 1 s l t (b :: l') := by
    intro t l' b X hX hl'
    refine ⟨insert b X, ?_, fun c hc => ?_⟩
    · have := Finset.card_insert_le b X
      omega
    rcases List.mem_cons.mp hc with rfl | hc
    · exact .inr (.inl (Finset.mem_insert_self _ _))
    rcases hl' c hc with hc | hc | rfl | hc
    · exact .inl hc
    · exact .inr (.inl (Finset.mem_insert_of_mem hc))
    · exact .inr (.inl (Finset.mem_insert_self _ _))
    · exact .inr (.inr hc)
  have hself : ∀ {q p : Slot sb.ninodes}, q.inum = i → p ∈ ({q} : Finset (Slot sb.ninodes)) → live p.inum := by
    intro q p hq hp
    rw [Finset.mem_singleton.mp hp, hq]
    exact h.live_self
  unfold bmap
  split
  · refine (loadAddr_logs h _).mono ?_
    rintro b p ⟨X, hX, hl⟩
    exact hlast hX fun c hc => (hl c hc).imp_right (Or.imp_right .inl)
  split
  · next hlt =>
    have hplain := (loadAddr_grows h (fun p => hself rfl) (Finset.mem_singleton_self (Slot.addr i 12))).anyError
    refine ((loadAddr_logs h 12).and ((erases_loadAddr 12).finishes hplain)).bind ?_
    rintro b ⟨t, l'⟩ ⟨⟨X, hX, hl⟩, hg, hb, hne⟩
    dsimp only at hX hl hg hb
    have hplain' := (loadEntry_grows hg.work (fun p => hself rfl) (Finset.mem_singleton_self (Slot.entry i ⟨bn - 12, hlt⟩))
      hb hne).anyError
    refine ((loadEntry_logs hg.work hb hne _).and ((erases_loadEntry b _).finishes hplain')).mono ?_
    rintro c ⟨u, l''⟩ ⟨⟨Y, hY, hl'⟩, hg', -⟩
    dsimp only at hY hl' hg' ⊢
    have hub : u.num (.addr i 12) = b := (hg'.kept.num (.addr i 12) h.live_self (hb.symm ▸ hne)).trans hb
    refine hlast (X := X ∪ Y) ?_ fun d hd => ?_
    · have := Finset.card_union_le X Y
      omega
    rcases hl' d hd with hd | hd | hd | rfl
    · rcases hl d hd with hd | hd | rfl
      · exact .inl hd
      · exact .inr (.inl (Finset.mem_union_left Y hd))
      · exact .inr (.inr (.inr ⟨hne, hub⟩))
    · exact .inr (.inl (Finset.mem_union_right X hd))
    · exact .inr (.inr (.inl hd))
    · exact .inr (.inr (.inr ⟨hne, hub⟩))
  · exact .throw trivial

def turns (off n : Nat) : Nat := if n = 0 then 0 else (off + n - 1) / 512 - off / 512 + 1

theorem turns_succ (hn : n ≠ 0) :
    turns off n = 1 + turns (off + min n (512 - off % 512)) (n - min n (512 - off % 512)) := by
  generalize hm : min n (512 - off % 512) = m
  unfold turns
  rw [if_neg hn]
  split <;> omega

theorem writeLoop_logs (h : Work live B (slots live) i s)
    (hneeded : ∀ p ∈ needed, live p.inum) (hfuel : n ≤ fuel) (hmax : off + n ≤ 71680)
    (hslot : ∀ k, off ≤ k → k < off + n → slotOf i (k / 512) ∈ needed)
    (h12 : ∀ k, off ≤ k → k < off + n → 12 ≤ k / 512 → .addr i 12 ∈ needed) :
    Finishes (fun _ => True) (writeLoop i fuel src off n) (s, l) fun _ p => Logs i (turns off n) s l p.1 p.2 := by
  induction fuel generalizing s l src off n with
  | zero =>
    obtain rfl : n = 0 := by omega
    exact .pure Logs.refl
  | succ fuel ih =>
    unfold writeLoop
    split
    · next hn =>
      rw [hn]
      exact .pure Logs.refl
    next hn =>
    have hplain := (bmap_grows h hneeded (show off / 512 < 140 by omega) (hslot off le_rfl (by omega))
      (h12 off le_rfl (by omega))).anyError
    refine ((bmap_logs h).and ((erases_bmap _).finishes hplain)).bind ?_
    rintro b ⟨t, l'⟩ ⟨hlogs, hg, hb, hne⟩
    dsimp only at hlogs hg hb
    rw [turns_succ hn]
    generalize hm : min n (512 - off % 512) = m
    refine load_ends (store_ends (Finishes.record ?_))
    generalize hu : t.setBlock b (splice (t.disk b) (off % 512) m src) = u
    have hwork : Work live B (slots live) i u := hu ▸ hg.work.write_slot hb hne _
    have hlogs' : Logs i 1 s l u (b :: l') := by
      obtain ⟨X, hX, hl⟩ := hlogs
      have hnum : u.num (.addr i 12) = t.num (.addr i 12) := hu ▸ hg.work.num_write hb hne _ h.live_self
      have hcount : u.freeCount = t.freeCount := hu ▸ Store.freeCount_setBlock (hg.work.inData hb hne) _
      exact ⟨X, hcount ▸ hX, hnum ▸ hl⟩
    have hslot' : ∀ k, off + m ≤ k → k < off + m + (n - m) → slotOf i (k / 512) ∈ needed :=
      fun k hk hk' => hslot k (by omega) (by omega)
    have h12' : ∀ k, off + m ≤ k → k < off + m + (n - m) → 12 ≤ k / 512 → .addr i 12 ∈ needed :=
      fun k hk hk' => h12 k (by omega) (by omega)
    have hrest := (writeLoop_writes (fun k => src (k + m)) hwork hneeded (show n - m ≤ fuel by omega) (by omega)
      hslot' h12').anyError
    refine ((ih hwork (by omega) (by omega) hslot' h12').and ((erases_writeLoop _ _ _ _).finishes hrest)).mono ?_
    rintro _ ⟨v, l''⟩ ⟨hlogs'', hv⟩
    exact hlogs'.trans hlogs'' (hv.kept.num _ h.live_self)

theorem missing_needed_le (hfull : Full s i) (hoff : off ≤ (s.inode i).size.toNat) (hn : n ≤ maxChunk) :
    (s.missing (Disk.needed i off n)).card ≤ 4 := by
  have hchunk : maxChunk = 1536 := rfl
  have hsub : s.missing (Disk.needed i off n) ⊆
      insert (.addr i 12) ((Finset.Ico ((off + 511) / 512) ((off + 511) / 512 + 3)).image (slotOf i)) := by
    intro p hp
    obtain ⟨hp, hzero⟩ := Finset.mem_filter.mp hp
    rcases Finset.mem_union.mp hp with hp | hp
    · obtain ⟨bn, hbn, rfl⟩ := Finset.mem_image.mp hp
      obtain ⟨-, -, hlt⟩ := Finset.mem_filter.mp hbn
      have hge : (s.inode i).size.toNat ≤ 512 * bn := Nat.le_of_not_lt fun hlt => hfull.block bn hlt hzero
      refine Finset.mem_insert_of_mem (Finset.mem_image_of_mem _ (Finset.mem_Ico.mpr ⟨?_, ?_⟩))
      · omega
      · omega
    · split at hp
      · rw [Finset.mem_singleton.mp hp]
        exact Finset.mem_insert_self _ _
      · cases hp
  calc (s.missing (Disk.needed i off n)).card
    _ ≤ _ := Finset.card_le_card hsub
    _ ≤ ((Finset.Ico ((off + 511) / 512) ((off + 511) / 512 + 3)).image (slotOf i)).card + 1 := Finset.card_insert_le _ _
    _ ≤ (Finset.Ico ((off + 511) / 512) ((off + 511) / 512 + 3)).card + 1 := Nat.succ_le_succ Finset.card_image_le
    _ = 4 := by rw [Nat.card_Ico]; omega

theorem turns_le (hn : n ≤ maxChunk) : turns off n ≤ 4 := by
  have hchunk : maxChunk = 1536 := rfl
  unfold turns
  split <;> omega

theorem Logs.card_le (h : Logs i n s [] t l') (hl : l ⊆ b :: l') :
    l.toFinset.card + t.freeCount ≤ s.freeCount + n + 2 := by
  obtain ⟨X, hX, hl'⟩ := h
  have hsub : l.toFinset ⊆ insert b (insert (t.num (.addr i 12)) X) := by
    intro c hc
    rcases List.mem_cons.mp (hl (List.mem_toFinset.mp hc)) with rfl | hc
    · exact Finset.mem_insert_self _ _
    refine Finset.mem_insert_of_mem ?_
    rcases hl' c hc with hc | hc | ⟨-, rfl⟩
    · cases hc
    · exact Finset.mem_insert_of_mem hc
    · exact Finset.mem_insert_self _ _
  have hcard := Finset.card_le_card hsub
  have hcard₁ := Finset.card_insert_le b (insert (t.num (.addr i 12)) X)
  have hcard₂ := Finset.card_insert_le (t.num (.addr i 12)) X
  omega

theorem writei_logs (h : Work live (fun _ => True) (slots live) i s)
    (hfull : Full s i) (hoff : off.toNat ≤ (s.inode i).size.toNat) (hn : n.toNat ≤ maxChunk) :
    Finishes (fun _ => True) (writei i src off n) (s, []) fun _ p => p.2.toFinset.card ≤ maxOpBlocks := by
  refine load_ends ?_
  split
  · exact .pure (Nat.zero_le _)
  next hok =>
  have hmax : off.toNat + n.toNat ≤ 71680 := by
    have hsize := hfull.size
    have hchunk : maxChunk = 1536 := rfl
    have hlimit : (140 * 512 : Word).toNat = 71680 := rfl
    have hle : ¬(140 * 512 : Word) < off + n := fun hlt => hok (.inr (.inr (.inr hlt)))
    rw [BitVec.lt_def, BitVec.toNat_add, hlimit] at hle
    omega
  have hneeded : ∀ p ∈ Disk.needed i off.toNat n.toNat, live p.inum := fun p hp => by
    rw [inum_needed hp]
    exact h.live_self
  have hslot := fun k hk hk' => slotOf_mem_needed (i := i) (k := k) hk hk' hmax
  have h12 : ∀ k, off.toNat ≤ k → k < off.toNat + n.toNat → 12 ≤ k / 512 →
      .addr i 12 ∈ Disk.needed i off.toNat n.toNat := fun k hk hk' hk12 => indirect_mem_needed (by omega)
  have hplain := (writeLoop_writes src h hneeded le_rfl hmax hslot h12).anyError
  refine ((writeLoop_logs h hneeded le_rfl hmax hslot h12).and ((erases_writeLoop _ _ _ _).finishes hplain)).bind ?_
  rintro _ ⟨t, l⟩ ⟨hlogs, ht⟩
  have hcount : ∀ {b : Word} {l' : List Word}, l' ⊆ b :: l → l'.toFinset.card ≤ maxOpBlocks := by
    intro b l' hl'
    have hcard := hlogs.card_le hl'
    have hmissing := missing_needed_le hfull hoff hn
    have hturns : turns off.toNat n.toNat ≤ 4 := turns_le hn
    have hpaid := ht.paid
    dsimp only at hcard hpaid
    unfold Paid at hpaid
    rw [maxOpBlocks]
    omega
  refine load_ends ?_
  split
  · refine store_ends (.bind (Q := fun _ p => p.2 = sb.iblock i :: l) ?_ ?_)
    · exact Finishes.onState (Q := fun _ _ => True) trivial fun _ _ _ => rfl
    · rintro _ ⟨u, _⟩ rfl
      exact .pure (hcount (List.Subset.refl _))
  · exact .pure (hcount (List.subset_cons_self 0 l))

theorem filewrite_chunk_fits (h : Inv s) (htype : (s.inode i).type = 2) (hfull : Full s i) {off n : Word}
    (hoff : off.toNat ≤ (s.inode i).size.toNat) (hn : n.toNat ≤ maxChunk) (src : Nat → Byte) :
    Finishes (· = .outOfBlocks) (writeChunk i src off n) (s, []) fun _ p => p.2.toFinset.card ≤ maxOpBlocks := by
  have hne : ∀ m : BitVec 16, m ≠ 2 → (s.inode i).type ≠ m := fun m hm heq => hm (heq.symm.trans htype)
  obtain ⟨t, hrun, hdisk, hinode⟩ := ilock_runs (hne 0 (by decide))
  have ht := (ilock_ends h i).of_ok hrun
  have hfull' : Full t i := hfull.congr hdisk (hinode i)
  rw [← hinode] at hoff
  have htype' : (t.inode i).type ≠ 3 := by
    rw [hinode]
    exact hne 3 (by decide)
  have hplain : Finishes (· = .outOfBlocks) (Disk.writei i src off n) t fun _ _ => True := by
    by_cases hbad : Refused t i off n
    · rw [Finishes, writei_refused htype' hbad]
      trivial
    · refine ((writei_writes src ht.inv ht.locked htype' hfull' hbad).weaken fun e he => he.1).mono fun _ _ _ => trivial
  have hlock : Finishes (· = .outOfBlocks) (ilock i) s fun _ u => u = t := by rw [Finishes, hrun]
  refine Finishes.onState hlock fun _ u hu => ?_
  rw [hu]
  exact (((erases_writei src off n).finishes hplain).and (writei_logs ht hfull' hoff hn)).mono fun _ _ hp => hp.2

theorem filewrite_chunk_fits_tiny :
    Finishes (· = .outOfBlocks) (writeChunk tinyFile (BitVec.ofNat 8) 0 1536) (boot tinyDisk, [])
      fun _ p => p.2.toFinset.card ≤ maxOpBlocks := by
  have hsize : ((boot tinyDisk : Store tiny).inode tinyFile).size = 0 := by decide +kernel
  have hfull : Full (boot tinyDisk) tinyFile := by
    refine ⟨by rw [hsize]; decide, fun bn hbn => ?_⟩
    rw [hsize] at hbn
    exact absurd hbn (Nat.not_lt_zero _)
  exact filewrite_chunk_fits (inv_boot owned_tiny) (by decide +kernel) hfull (Nat.zero_le _) (by decide) (BitVec.ofNat 8)

end counts

end Xv6.Disk.Logged
