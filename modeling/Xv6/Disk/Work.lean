import Xv6.Disk.Alloc
import Xv6.Lib.Owner

namespace Xv6.Disk

open Function Lib Prog

variable {sb : Superblock}

/-- A place that can hold a block number: `addrs[k]`, where `addrs[12]` is the indirect block,
or an entry of the indirect block. -/
inductive Slot (n : Nat)
  | addr (i : Fin n) (k : Fin 13)
  | entry (i : Fin n) (j : Fin 128)
  deriving DecidableEq

def Slot.inum {n : Nat} : Slot n → Fin n
  | addr i _ | entry i _ => i

namespace Store

def num (s : Store sb) : Slot sb.ninodes → Word
  | .addr i k => (s.inode i).addrs k
  | .entry i j => if (s.inode i).addrs 12 = 0 then 0 else (s.disk ((s.inode i).addrs 12)).word j

def Free (s : Store sb) (b : Word) : Prop := b.toNat < sb.size ∧ sb.bit s.disk b.toNat = false

abbrev OwnsOn (s : Store sb) (S : Slot sb.ninodes → Prop) : Prop := Owns 0 sb.InData s.Free s.num S

variable {s t : Store sb} {i j : Fin sb.ninodes} {b : Word} {p : Slot sb.ninodes}

theorem num_congr (hinode : t.inode p.inum = s.inode p.inum)
    (hdisk : (s.inode p.inum).addrs 12 ≠ 0 → t.disk ((s.inode p.inum).addrs 12) = s.disk ((s.inode p.inum).addrs 12)) :
    t.num p = s.num p := by
  cases p with
  | addr i k => exact congrFun (congrArg Inode.addrs hinode) k
  | entry i j =>
    simp only [num, Slot.inum] at *
    rw [hinode]
    split
    · rfl
    · next hne => rw [hdisk hne]

theorem inode_congr (hicache : t.icache = s.icache) (hdinode : sb.dinode t.disk i = sb.dinode s.disk i) :
    t.inode i = s.inode i := by
  rw [inode, inode, hicache, hdinode]

theorem inode_setInode_self (ip : Inode) : (s.setInode i ip).inode i = ip := by
  rw [inode, setInode_icache, update_self, Option.getD_some]

theorem inode_setInode_of_ne (h : j ≠ i) (ip : Inode) : (s.setInode i ip).inode j = s.inode j := by
  rw [inode, setInode_icache, update_of_ne h, inode]
  rfl

theorem inode_setAddr_self (k : Fin 13) (b : Word) :
    (s.setAddr i k b).inode i = { s.inode i with addrs := update (s.inode i).addrs k b } :=
  inode_setInode_self _

theorem inode_setAddr_of_ne (h : j ≠ i) (k : Fin 13) (b : Word) : (s.setAddr i k b).inode j = s.inode j :=
  inode_setInode_of_ne h _

theorem num_setAddr_self (k : Fin 13) (b : Word) : (s.setAddr i k b).num (.addr i k) = b := by
  rw [num, inode_setAddr_self]
  exact update_self ..

theorem num_setAddr_entry (b : Word) (l : Fin 128) :
    (s.setAddr i 12 b).num (.entry i l) = if b = 0 then 0 else (s.disk b).word l := by
  have h12 : ((s.setAddr i 12 b).inode i).addrs 12 = b := num_setAddr_self 12 b
  simp only [num, h12]
  rfl

theorem num_setAddr (k : Fin 13) (b : Word) (hp : p ≠ .addr i k) (hentry : ∀ j, p = .entry i j → k ≠ 12) :
    (s.setAddr i k b).num p = s.num p := by
  cases p with
  | addr j l =>
    simp only [num]
    by_cases hj : j = i
    · have hl : l ≠ k := by
        rintro rfl
        exact hp (by rw [hj])
      rw [hj, inode_setAddr_self]
      exact update_of_ne hl ..
    · rw [inode_setAddr_of_ne hj]
  | entry j l =>
    simp only [num]
    by_cases hj : j = i
    · have h12 : ((s.setAddr i k b).inode i).addrs 12 = (s.inode i).addrs 12 := by
        rw [inode_setAddr_self]
        exact update_of_ne (hentry l (by rw [hj])).symm ..
      rw [hj, h12]
      rfl
    · rw [inode_setAddr_of_ne hj]
      rfl

theorem inode_setBlock (hb : sb.InData b) (data : Block) (i : Fin sb.ninodes) :
    (s.setBlock b data).inode i = s.inode i :=
  inode_congr rfl (Superblock.dinode_update hb i data)

theorem free_setBlock (hb : sb.InData b) (data : Block) (c : Word) : (s.setBlock b data).Free c ↔ s.Free c := by
  refine and_congr_right fun hc => ?_
  rw [setBlock_disk, Superblock.bit_update hb hc]

end Store

def Backed (d ip : Inode) : Prop :=
  d.typeMajor = ip.typeMajor ∧ ∀ k, d.addrs k = 0 ∨ d.addrs k = ip.addrs k

/-- What holds while a call works on inode `i`.  The allocated inodes are those in `live`; the
owners that count are in `S`; the copies of the inodes in `B` are backed by the disk. -/
structure Work (live B : Fin sb.ninodes → Prop) (S : Slot sb.ninodes → Prop) (i : Fin sb.ninodes)
    (s : Store sb) : Prop where
  owns : s.OwnsOn S
  live_iff : ∀ j, live j ↔ (s.inode j).type ≠ 0
  cached : ∀ j, (s.icache j).isSome → live j
  backed : ∀ j ip, B j → s.icache j = some ip → Backed (sb.dinode s.disk j) ip
  locked : (s.icache i).isSome

def slots (live : Fin sb.ninodes → Prop) : Slot sb.ninodes → Prop := fun p => live p.inum

section

variable {live B : Fin sb.ninodes → Prop} {S : Slot sb.ninodes → Prop} {i : Fin sb.ninodes} {s t : Store sb}
  {b : Word}

theorem Work.live_self (h : Work live B S i s) : live i := h.cached i h.locked

theorem Work.icache (h : Work live B S i s) : s.icache i = some (s.inode i) := by
  obtain ⟨ip, hip⟩ := Option.isSome_iff_exists.mp h.locked
  rw [hip, Store.inode, hip, Option.getD_some]

theorem Work.of_disk (h : Work live B S i s) (hicache : t.icache = s.icache)
    (hdinode : ∀ j, sb.dinode t.disk j = sb.dinode s.disk j) (howns : t.OwnsOn S') : Work live B S' i t where
  owns := howns
  live_iff := fun j => by rw [Store.inode_congr hicache (hdinode j), h.live_iff]
  cached := fun j hj => h.cached j (by rwa [hicache] at hj)
  backed := fun j ip hB hj => by
    rw [hicache] at hj
    rw [hdinode j]
    exact h.backed j ip hB hj
  locked := by rw [hicache, h.locked]

structure Took (s : Store sb) (S : Slot sb.ninodes → Prop) (b : Word) (t : Store sb) : Prop where
  owns : t.OwnsOn S
  inData : sb.InData b
  used : ¬t.Free b
  new : ∀ p, S p → t.num p ≠ 0 → t.num p ≠ b
  zero : t.disk b = .zero
  icache : t.icache = s.icache
  dinode : ∀ i, sb.dinode t.disk i = sb.dinode s.disk i
  num : ∀ p, S p → t.num p = s.num p

theorem Took.inode (h : Took s S b t) (i : Fin sb.ninodes) : t.inode i = s.inode i :=
  Store.inode_congr h.icache (h.dinode i)

def Closed (S : Slot sb.ninodes → Prop) : Prop := ∀ i j, S (.entry i j) → S (.addr i 12)

theorem closed_slots : Closed (slots live) := fun _ _ h => h

def Allowed (e : Panic) : Prop := e ≠ .freeingFreeBlock

theorem balloc_ends (h : s.OwnsOn S) (hS : Closed S) : Finishes Allowed balloc s (Took s S) := by
  refine .get ?_
  split
  · next b hb =>
    refine .set (.pure ?_)
    have hbit : sb.bit s.disk b = false := by simpa using List.find?_some hb
    have hlt : b < sb.size := List.mem_range.mp (List.mem_of_find?_eq_some hb)
    have hsize := sb.size_lt
    have hnat : (BitVec.ofNat 32 b).toNat = b := Nat.mod_eq_of_lt (by omega)
    have hfree : s.Free (BitVec.ofNat 32 b) := by rw [Store.Free, hnat]; exact ⟨hlt, hbit⟩
    have hdata : sb.InData (BitVec.ofNat 32 b) := h.free _ hfree
    have hdinode : ∀ i, sb.dinode (update (sb.setBit s.disk b true) (BitVec.ofNat 32 b) .zero) i =
        sb.dinode s.disk i := fun i => by
      rw [Superblock.dinode_update hdata, Superblock.dinode_setBit hlt]
    obtain ⟨t, ht⟩ : ∃ t : Store sb, t =
      { s with disk := update (sb.setBit s.disk b true) (BitVec.ofNat 32 b) .zero } := ⟨_, rfl⟩
    rw [← ht]
    have hticache : t.icache = s.icache := by rw [ht]
    have htdinode : ∀ i, sb.dinode t.disk i = sb.dinode s.disk i := fun i => by rw [ht]; exact hdinode i
    have htfree : ∀ c, t.Free c ↔ s.Free c ∧ c ≠ BitVec.ofNat 32 b := by
      intro c
      rw [ht, Store.Free, Store.Free, and_assoc]
      refine and_congr_right fun hc => ?_
      rw [Superblock.bit_update hdata hc]
      by_cases hcb : c.toNat = b
      · have hceq : c = BitVec.ofNat 32 b := by rw [← BitVec.toNat_inj, hcb, hnat]
        rw [hcb, Superblock.bit_setBit_self]
        exact iff_of_false nofun fun h => h.2 hceq
      · have hcne : c ≠ BitVec.ofNat 32 b := fun heq => hcb (by rw [heq, hnat])
        rw [Superblock.bit_setBit_of_ne hlt hc hcb]
        exact ⟨fun h => ⟨h, hcne⟩, fun h => h.1⟩
    have htnum : ∀ p, S p → t.num p = s.num p := by
      intro p hp
      cases p with
      | addr i k => exact congrFun (congrArg Inode.addrs (Store.inode_congr hticache (htdinode i))) k
      | entry i j =>
        refine Store.num_congr (Store.inode_congr hticache (htdinode i)) fun hne => ?_
        have hin : sb.InData ((s.inode i).addrs 12) := h.inArea (.addr i 12) (hS i j hp) hne
        have hneb : (s.inode i).addrs 12 ≠ BitVec.ofNat 32 b := by
          intro heq
          refine h.used (.addr i 12) (hS i j hp) hne ?_
          rw [Store.num, heq]
          exact hfree
        rw [ht]
        exact (update_of_ne hneb ..).trans (Superblock.setBit_of_inData hin hlt true)
    have hshrink : Owns 0 sb.InData s.Free t.num S :=
      h.shrink fun p hp _ => ⟨hp, htnum p hp⟩
    obtain ⟨howns, hnew⟩ := hshrink.take hfree htfree
    exact {
      owns := howns
      inData := hdata
      used := fun hf => ((htfree _).mp hf).2 rfl
      new := hnew
      zero := by rw [ht]; exact update_self ..
      icache := hticache
      dinode := htdinode
      num := htnum }
  · exact .throw nofun

theorem Work.setInode (h : Work live B S i s)
    (htype : ip.typeMajor = (s.inode i).typeMajor) (hB : ∀ j ≠ i, B' j → B j)
    (hbacked : B' i → Backed (sb.dinode s.disk i) ip) (howns : (s.setInode i ip).OwnsOn S') :
    Work live B' S' i (s.setInode i ip) where
  owns := howns
  live_iff := fun j => by
    by_cases hj : j = i
    · rw [hj, h.live_iff, Store.inode_setInode_self, Inode.type, Inode.type, htype]
    · rw [Store.inode_setInode_of_ne hj, h.live_iff]
  cached := fun j hj => by
    by_cases hji : j = i
    · rw [hji]
      exact h.live_self
    · rw [Store.setInode_icache, update_of_ne hji] at hj
      exact h.cached j hj
  backed := fun j jp hBj hj => by
    by_cases hji : j = i
    · rw [hji, Store.setInode_icache, update_self] at hj
      cases hj
      rw [hji]
      exact hbacked (hji ▸ hBj)
    · rw [Store.setInode_icache, update_of_ne hji] at hj
      exact h.backed j jp (hB j hji hBj) hj
  locked := by
    rw [Store.setInode_icache, update_self]
    rfl

theorem Work.setAddr (h : Work live B S i s)
    (hB : ∀ j ≠ i, B' j → B j)
    (hbacked : B' i → ∀ l, (sb.dinode s.disk i).addrs l = 0 ∨
      (sb.dinode s.disk i).addrs l = update (s.inode i).addrs k b l)
    (hB' : B' i → B i) (howns : (s.setAddr i k b).OwnsOn S') : Work live B' S' i (s.setAddr i k b) :=
  h.setInode rfl hB (fun hi => ⟨(h.backed i _ (hB' hi) h.icache).1, hbacked hi⟩) howns

theorem Took.work (ht : Took s S b t) (h : Work live B S i s) : Work live B S i t :=
  h.of_disk ht.icache ht.dinode ht.owns

theorem loadAddr_ends (h : Work live B (slots live) i s) (k : Fin 13) :
    Finishes Allowed (loadAddr i k) s fun b t => Work live B (slots live) i t ∧ (t.inode i).addrs k = b ∧ b ≠ 0 := by
  refine .get ?_
  split
  · next hk =>
    refine (balloc_ends h.owns closed_slots).bind fun b t ht => ?_
    refine .get (.set (.pure ?_))
    have hself : ((t.setAddr i k b).inode i).addrs k = b := Store.num_setAddr_self k b
    refine ⟨?_, hself, ht.inData.ne_zero⟩
    have hzero : (t.inode i).addrs k = 0 := by rw [ht.inode, hk]
    refine (ht.work h).setAddr (fun _ _ => id) (fun hB l => ?_) id ?_
    · obtain ⟨-, haddrs⟩ := (ht.work h).backed i _ hB (ht.work h).icache
      by_cases hl : l = k
      · refine .inl ((haddrs l).elim id fun heq => ?_)
        rw [heq, hl, hzero]
      · exact (haddrs l).imp id fun heq => heq.trans (update_of_ne hl ..).symm
    · refine ht.owns.give ht.inData ht.used ht.new (Store.num_setAddr_self k b) fun p hp hne hnum => ?_
      refine Store.num_setAddr k b hne fun j hj hk12 => hnum ?_
      rw [hj, hk12, Store.num_setAddr_entry, if_neg ht.inData.ne_zero, ht.zero, Block.word_zero]
  · next hk => exact .pure ⟨h, rfl, hk⟩

theorem Work.setBlock (h : Work live B (slots live) i s) (hb : sb.InData b) (data : Block)
    (howns : (s.setBlock b data).OwnsOn (slots live)) : Work live B (slots live) i (s.setBlock b data) :=
  h.of_disk rfl (fun j => Superblock.dinode_update hb j data) howns

theorem Work.num_setBlock (h : Work live B (slots live) i s) (hp : slots live p)
    (hb : s.num p = b) (hne : b ≠ 0) (data : Block) (hq : slots live q)
    (hpq : ∀ l, q = .entry q.inum l → p ≠ .addr q.inum 12) : (s.setBlock b data).num q = s.num q := by
  have hin : sb.InData b := hb ▸ h.owns.inArea p hp (hb.symm ▸ hne)
  cases q with
  | addr j l => exact congrFun (congrArg Inode.addrs (Store.inode_setBlock hin data j)) l
  | entry j l =>
    refine Store.num_congr (Store.inode_setBlock hin data j) fun h12 => ?_
    refine update_of_ne (fun heq => hpq l rfl ?_) ..
    exact (h.owns.once (.addr j 12) p hq hp h12 (heq.trans hb.symm)).symm

theorem loadEntry_ends (h : Work live B (slots live) i s) (hb : (s.inode i).addrs 12 = b) (hne : b ≠ 0)
    (j : Fin 128) : Finishes Allowed (loadEntry b j) s fun c t =>
      Work live B (slots live) i t ∧ t.num (.entry i j) = c ∧ c ≠ 0 := by
  have hentry : ∀ t : Store sb, (t.inode i).addrs 12 = b → ∀ l, t.num (.entry i l) = (t.disk b).word l := by
    intro t ht l
    rw [Store.num, ht, if_neg hne]
  refine .get ?_
  split
  · next hj =>
    refine (balloc_ends h.owns closed_slots).bind fun c t ht => ?_
    refine .get (.set (.pure ?_))
    have hw := ht.work h
    have htb : (t.inode i).addrs 12 = b := by rw [ht.inode, hb]
    have hnum : t.num (.addr i 12) = b := htb
    have hin : sb.InData b := hnum ▸ hw.owns.inArea (.addr i 12) h.live_self (hnum.symm ▸ hne)
    have hb' : ((t.setBlock b ((t.disk b).setWord j c)).inode i).addrs 12 = b := by
      rw [Store.inode_setBlock hin, htb]
    have hword : ∀ l, (t.setBlock b ((t.disk b).setWord j c)).num (.entry i l) =
        if l = j then c else (t.disk b).word l := by
      intro l
      rw [hentry _ hb' l, Store.setBlock_disk, update_self, Block.word_setWord]
    have hself := hword j
    rw [if_pos rfl] at hself
    refine ⟨hw.setBlock hin _ ?_, hself, ht.inData.ne_zero⟩
    have howns : Owns 0 sb.InData t.Free (t.setBlock b ((t.disk b).setWord j c)).num (slots live) := by
      refine ht.owns.give ht.inData ht.used ht.new hself fun p hp hpne hnum => ?_
      by_cases hpi : ∃ l, p = .entry i l
      · obtain ⟨l, rfl⟩ := hpi
        have hl : l ≠ j := fun heq => hpne (by rw [heq])
        rw [hword, if_neg hl, hentry t htb]
      · refine hw.num_setBlock h.live_self (p := .addr i 12) htb hne _ hp fun l hl heq => hpi ?_
        cases heq
        exact ⟨l, hl⟩
    exact howns.congr_free (Store.free_setBlock hin _)
  · next hj => exact .pure ⟨h, hentry s hb j, hj⟩

theorem bmap_ends (h : Work live B (slots live) i s) (bn : Nat) :
    Finishes Allowed (bmap i bn) s fun b t =>
      Work live B (slots live) i t ∧ ∃ p, slots live p ∧ (∀ j, p ≠ .addr j 12) ∧ t.num p = b ∧ b ≠ 0 := by
  unfold bmap
  split
  · next hbn =>
    refine (loadAddr_ends h _).mono ?_
    rintro b t ⟨hw, hb, hne⟩
    refine ⟨hw, .addr i ⟨bn, by omega⟩, h.live_self, ?_, hb, hne⟩
    intro j heq
    cases heq
    exact absurd hbn (by decide)
  · split
    · refine (loadAddr_ends h 12).bind ?_
      rintro b t ⟨hw, hb, hne⟩
      refine (loadEntry_ends hw hb hne _).mono ?_
      rintro c u ⟨hw', hc, hc'⟩
      exact ⟨hw', .entry i _, h.live_self, (by rintro j ⟨⟩), hc, hc'⟩
    · exact .throw (by rintro ⟨⟩)

theorem Work.write (h : Work live B (slots live) i s) (hp : slots live p)
    (hdata : ∀ j, p ≠ .addr j 12) (hb : s.num p = b) (hne : b ≠ 0) (data : Block) :
    Work live B (slots live) i (s.setBlock b data) := by
  have hin : sb.InData b := hb ▸ h.owns.inArea p hp (hb.symm ▸ hne)
  refine h.setBlock hin data (Owns.congr_free ?_ (Store.free_setBlock hin data))
  exact h.owns.shrink fun q hq _ => ⟨hq, h.num_setBlock hp hb hne data hq fun _ _ => hdata _⟩

theorem readLoop_ends (h : Work live B (slots live) i s) (fuel off n : Nat) :
    Finishes Allowed (readLoop i fuel off n) s fun _ t => Work live B (slots live) i t := by
  induction fuel generalizing s off n with
  | zero => exact .pure h
  | succ fuel ih =>
    unfold readLoop
    split
    · exact .pure h
    · refine (bmap_ends h _).bind fun b t ⟨hw, _⟩ => .get ?_
      exact (ih hw _ _).bind fun _ u hu => .pure hu

theorem writeLoop_ends (h : Work live B (slots live) i s) (fuel : Nat) (src : Nat → Byte) (off n : Nat) :
    Finishes Allowed (writeLoop i fuel src off n) s fun _ t => Work live B (slots live) i t := by
  induction fuel generalizing s src off n with
  | zero => exact .pure h
  | succ fuel ih =>
    unfold writeLoop
    split
    · exact .pure h
    · refine (bmap_ends h _).bind fun b t ⟨hw, p, hp, hdata, hb, hne⟩ => .get (.set ?_)
      exact ih (hw.write hp hdata hb hne _) _ _ _

theorem bfree_ends (h : Work live B S i s) (hp : S p)
    (hne : s.num p ≠ 0) (hS' : ∀ q, S' q → S q ∧ q ≠ p) (hclosed : Closed S) :
    Finishes Allowed (bfree (s.num p)) s fun _ t => Work live B S' i t ∧ t.icache = s.icache := by
  have hin : sb.InData (s.num p) := h.owns.inArea p hp hne
  have hused := h.owns.used p hp hne
  refine .get ?_
  split
  · next hbit =>
    have hdinode : ∀ j, sb.dinode (sb.setBit s.disk (s.num p).toNat false) j = sb.dinode s.disk j :=
      fun j => Superblock.dinode_setBit hin.2 j false
    obtain ⟨t, ht⟩ : ∃ t : Store sb, t = { s with disk := sb.setBit s.disk (s.num p).toNat false } := ⟨_, rfl⟩
    show Work live B S' i { s with disk := sb.setBit s.disk (s.num p).toNat false } ∧ _
    rw [← ht]
    have hdisk : ∀ b, sb.InData b → t.disk b = s.disk b := fun b hb => by
      rw [ht]
      exact Superblock.setBit_of_inData hb hin.2 false
    have hinode : ∀ j, t.inode j = s.inode j := fun j => by
      rw [ht]
      exact Store.inode_congr rfl (hdinode j)
    have hnum : ∀ q, S q → t.num q = s.num q := by
      intro q hq
      cases q with
      | addr j l => exact congrFun (congrArg Inode.addrs (hinode j)) l
      | entry j l =>
        exact Store.num_congr (hinode j) fun h12 => hdisk _ (h.owns.inArea (.addr j 12) (hclosed j l hq) h12)
    have hfree : ∀ c, t.Free c ↔ s.Free c ∨ c = s.num p := by
      intro c
      by_cases hc : c = s.num p
      · rw [hc, ht, Store.Free, Superblock.bit_setBit_self]
        exact iff_of_true ⟨hin.2, rfl⟩ (.inr rfl)
      · rw [or_iff_left hc, ht, Store.Free, Store.Free]
        refine and_congr_right fun hlt => ?_
        rw [Superblock.bit_setBit_of_ne hin.2 hlt fun heq => hc (BitVec.toNat_inj.mp heq)]
    refine ⟨h.of_disk (by rw [ht]) (fun j => by rw [ht]; exact hdinode j) ?_, by rw [ht]⟩
    have howns := h.owns.release hp hne hfree hS'
    exact howns.shrink fun q hq _ => ⟨hq, hnum q (hS' q hq).1⟩
  · next hbit => exact absurd ⟨hin.2, by simpa using hbit⟩ hused

theorem Work.mono (h : Work live B S i s)
    (hB : ∀ j, B' j → B j) (hS : ∀ p, S' p → s.num p ≠ 0 → S p) : Work live B' S' i s where
  owns := h.owns.shrink fun p hp hne => ⟨hS p hp hne, rfl⟩
  live_iff := h.live_iff
  cached := h.cached
  backed := fun j ip hj => h.backed j ip (hB j hj)
  locked := h.locked

theorem freeAddr_ends (h : Work live (· ≠ i) S i s) (hk : S (.addr i k))
    (hclosed : Closed S) (hS' : ∀ p, S' p → S p ∨ k = 12 ∧ ∃ j, p = .entry i j) :
    Finishes Allowed (freeAddr i k) s fun _ t => Work live (· ≠ i) S' i t := by
  refine .get ?_
  split
  · next hzero =>
    refine .pure (h.mono (fun _ => id) fun p hp hne => (hS' p hp).elim id ?_)
    rintro ⟨rfl, j, rfl⟩
    exact absurd (by rw [Store.num, if_pos hzero]) hne
  · next hne =>
    have hfree : Finishes Allowed (bfree (s.num (.addr i k))) s fun _ t =>
        Work live (· ≠ i) (fun q => S q ∧ q ≠ .addr i k) i t ∧ t.icache = s.icache :=
      bfree_ends h hk hne (fun _ => id) hclosed
    refine hfree.bind fun _ t ⟨hw, _⟩ => .get (.put ?_)
    refine hw.setAddr (fun _ _ => id) (fun hi => absurd rfl hi) id (hw.owns.shrink fun p hp hpne => ?_)
    have hself : p ≠ .addr i k := by
      rintro rfl
      exact hpne (Store.num_setAddr_self k 0)
    have hentry : ∀ j, p = .entry i j → k ≠ 12 := by
      rintro j rfl rfl
      exact hpne (by rw [Store.num_setAddr_entry, if_pos rfl])
    refine ⟨⟨(hS' p hp).elim id ?_, hself⟩, Store.num_setAddr k 0 hself hentry⟩
    rintro ⟨hk12, j, hj⟩
    exact absurd hk12 (hentry j hj)

theorem freeEntry_ends (ha : a ∉ l) (hne : b ≠ 0)
    (h : Work live (· ≠ i) (fun p => live p.inum ∧ ∀ j, p = .entry i j → j ∈ a :: l) i s)
    (hb : (s.inode i).addrs 12 = b) :
    Finishes Allowed (freeEntry b a) s fun _ t =>
      Work live (· ≠ i) (fun p => live p.inum ∧ ∀ j, p = .entry i j → j ∈ l) i t ∧ (t.inode i).addrs 12 = b := by
  have hnum : s.num (.entry i a) = (s.disk b).word a := by rw [Store.num, hb, if_neg hne]
  refine .get ?_
  split
  · next hzero =>
    refine .pure ⟨h.mono (fun _ => id) fun p ⟨hp, hl⟩ _ => ⟨hp, fun j hj => List.mem_cons_of_mem a (hl j hj)⟩, hb⟩
  · next hword =>
    rw [← hnum] at hword ⊢
    have hfree : Finishes Allowed (bfree (s.num (.entry i a))) s fun _ t =>
        Work live (· ≠ i) (fun p => live p.inum ∧ ∀ j, p = .entry i j → j ∈ l) i t ∧ t.icache = s.icache := by
      refine bfree_ends h ⟨h.live_self, ?_⟩ hword ?_ ?_
      · rintro j heq
        cases heq
        exact List.mem_cons_self
      · rintro q ⟨hq, hl⟩
        refine ⟨⟨hq, fun j hj => List.mem_cons_of_mem a (hl j hj)⟩, ?_⟩
        rintro rfl
        exact ha (hl a rfl)
      · exact fun j m hjm => ⟨hjm.1, nofun⟩
    refine hfree.mono fun _ t ⟨hw, hicache⟩ => ⟨hw, ?_⟩
    have hinode : some (t.inode i) = some (s.inode i) := by rw [← hw.icache, hicache, h.icache]
    rw [Option.some.inj hinode, hb]

theorem freeIndirect_ends (h : Work live (· ≠ i) (slots live) i s) :
    Finishes Allowed (freeIndirect i) s fun _ t => Work live (· ≠ i) (slots live) i t := by
  refine .get ?_
  split
  · exact .pure h
  · next hne =>
    have hloop := Finishes.forM (E := Allowed) (f := freeEntry ((s.inode i).addrs 12)) (s := s)
      (I := fun l t => l.Nodup ∧
        Work live (· ≠ i) (fun p => live p.inum ∧ ∀ j, p = .entry i j → j ∈ l) i t ∧
          (t.inode i).addrs 12 = (s.inode i).addrs 12)
      (fun a l t ⟨hl, hw, hb⟩ => by
        obtain ⟨ha, hl⟩ := List.nodup_cons.mp hl
        exact (freeEntry_ends ha hne hw hb).mono fun _ u ⟨hu, hub⟩ => ⟨hl, hu, hub⟩)
      (List.finRange 128)
      ⟨List.nodup_finRange 128, h.mono (fun _ => id) fun p hp _ => hp.1, rfl⟩
    refine hloop.bind fun _ t ⟨_, hw, _⟩ => ?_
    refine freeAddr_ends hw ⟨h.live_self, nofun⟩ (fun j m hjm => ⟨hjm.1, nofun⟩) fun p hp => ?_
    by_cases hpi : ∃ j, p = .entry i j
    · exact .inr ⟨rfl, hpi⟩
    · exact .inl ⟨hp, fun j hj => absurd ⟨j, hj⟩ hpi⟩

structure Updated (i : Fin sb.ninodes) (s t : Store sb) : Prop where
  icache : t.icache = s.icache
  inode : ∀ j, t.inode j = s.inode j
  self : sb.dinode t.disk i = s.inode i
  dinode : ∀ j ≠ i, sb.dinode t.disk j = sb.dinode s.disk j
  data : ∀ c, sb.InData c → t.disk c = s.disk c
  bit : ∀ c < sb.size, sb.bit t.disk c = sb.bit s.disk c

theorem Work.updated (h : Work live B S i s) :
    Updated i s { s with disk := sb.setDinode s.disk i (s.inode i) } where
  icache := rfl
  inode := fun j => by
    by_cases hj : j = i
    · rw [hj, Store.inode, h.icache, Option.getD_some]
    · exact Store.inode_congr rfl (Superblock.dinode_setDinode_of_ne hj _)
  self := Superblock.dinode_setDinode_self _
  dinode := fun j hj => Superblock.dinode_setDinode_of_ne hj _
  data := fun c hc => Superblock.setDinode_of_inData hc i _
  bit := fun c hc => Superblock.bit_setDinode hc i _

theorem Updated.num (hu : Updated i s t) (h : Work live B S i s) (hclosed : Closed S) (hp : S p) :
    t.num p = s.num p := by
  cases p with
  | addr j k => exact congrFun (congrArg Inode.addrs (hu.inode j)) k
  | entry j k => exact Store.num_congr (hu.inode j) fun h12 => hu.data _ (h.owns.inArea (.addr j 12) (hclosed j k hp) h12)

theorem Updated.work (hu : Updated i s t) (h : Work live B S i s) (hclosed : Closed S) :
    Work live (fun j => B j ∨ j = i) S i t where
  owns := by
    refine (h.owns.shrink fun p hp _ => ⟨hp, hu.num h hclosed hp⟩).congr_free fun c => ?_
    exact and_congr_right fun hc => by rw [hu.bit _ hc]
  live_iff := fun j => by rw [hu.inode, h.live_iff]
  cached := fun j hj => h.cached j (by rwa [hu.icache] at hj)
  backed := fun j ip hB hj => by
    rw [hu.icache] at hj
    by_cases hji : j = i
    · rw [hji, h.icache] at hj
      cases hj
      rw [hji, hu.self]
      exact ⟨rfl, fun k => .inr rfl⟩
    · rw [hu.dinode j hji]
      exact h.backed j ip (hB.resolve_right hji) hj
  locked := by rw [hu.icache, h.locked]

theorem iupdate_ends (h : Work live B S i s) (hclosed : Closed S) :
    Finishes Allowed (iupdate i) s fun _ t => Work live (fun j => B j ∨ j = i) S i t :=
  Finishes.get (.put (h.updated.work h hclosed))

theorem Store.num_setSize (n : Word) (p : Slot sb.ninodes) :
    (s.setInode i { s.inode i with size := n }).num p = s.num p := by
  have haddrs : ∀ j, ((s.setInode i { s.inode i with size := n }).inode j).addrs = (s.inode j).addrs := by
    intro j
    by_cases hj : j = i
    · rw [hj, Store.inode_setInode_self]
    · rw [Store.inode_setInode_of_ne hj]
  cases p with
  | addr j k => exact congrFun (haddrs j) k
  | entry j k =>
    simp only [Store.num, haddrs]
    rfl

theorem Work.setSize (h : Work live B (slots live) i s) (n : Word) :
    Work live B (slots live) i (s.setInode i { s.inode i with size := n }) := by
  refine h.setInode rfl (fun _ _ => id) (fun hi => ?_) (h.owns.shrink fun p hp _ => ⟨hp, Store.num_setSize n p⟩)
  obtain ⟨htype, hbacked⟩ := h.backed i _ hi h.icache
  exact ⟨htype, hbacked⟩

theorem itrunc_ends (h : Work live (fun _ => True) (slots live) i s) :
    Finishes Allowed (itrunc i) s fun _ t => Work live (fun _ => True) (slots live) i t := by
  have hloop := Finishes.forM (E := Allowed) (f := fun k : Fin 12 => freeAddr i k.castSucc) (s := s)
    (I := fun _ t => Work live (· ≠ i) (slots live) i t)
    (fun k _ t hw => freeAddr_ends hw h.live_self closed_slots fun p hp => .inl hp)
    (List.finRange 12) (h.mono (fun _ _ => trivial) fun p hp _ => hp)
  refine hloop.bind fun _ t ht => (freeIndirect_ends ht).bind fun _ u hu => .get (.set ?_)
  refine (iupdate_ends (hu.setSize 0) closed_slots).mono fun _ v hv => hv.mono (fun j _ => ?_) fun p hp _ => hp
  exact (em (j = i)).symm

theorem readi_ends (h : Work live B (slots live) i s) (off n : Word) :
    Finishes Allowed (readi i off n) s fun _ t => Work live B (slots live) i t := by
  refine .get ?_
  split
  · exact .pure h
  · exact (readLoop_ends h _ _ _).bind fun _ t ht => .pure ht

theorem writei_ends (h : Work live (fun _ => True) (slots live) i s) (src : Nat → Byte) (off n : Word) :
    Finishes Allowed (writei i src off n) s fun _ t => Work live (fun _ => True) (slots live) i t := by
  refine .get ?_
  split
  · exact .pure h
  · refine (writeLoop_ends h _ _ _ _).bind fun _ t ht => .get ?_
    split
    · refine .set ((iupdate_ends (ht.setSize _) closed_slots).bind fun _ u hu => .pure ?_)
      exact hu.mono (fun _ _ => .inl trivial) fun p hp _ => hp
    · exact .pure ht

end

end Xv6.Disk
