import Xv6.Disk.Work
import Xv6.Lib.Run

namespace Xv6.Disk

open Function Lib Prog

variable {sb : Superblock} {i : Fin sb.ninodes} {s t : Store sb}

def Allocated (s : Store sb) (i : Fin sb.ninodes) : Prop := (s.inode i).type ≠ 0

structure Inv (s : Store sb) : Prop where
  owns : s.OwnsOn (slots (Allocated s))
  cached : ∀ i, (s.icache i).isSome → Allocated s i
  backed : ∀ i ip, s.icache i = some ip → Backed (sb.dinode s.disk i) ip

theorem Work.inv (h : Work live (fun _ => True) (slots live) i s) : Inv s := by
  obtain rfl : live = Allocated s := funext fun j => propext (h.live_iff j)
  exact ⟨h.owns, h.cached, fun j ip => h.backed j ip trivial⟩

theorem ilock_ends (h : Inv s) (i : Fin sb.ninodes) :
    Finishes Allowed (ilock i) s fun _ t => Work (Allocated s) (fun _ => True) (slots (Allocated s)) i t := by
  refine .get ?_
  split
  · next ip hip =>
    exact .pure ⟨h.owns, fun _ => Iff.rfl, h.cached, fun j jp _ => h.backed j jp, by rw [hip]; rfl⟩
  · next hnone =>
    have hdisk : s.inode i = sb.dinode s.disk i := by rw [Store.inode, hnone, Option.getD_none]
    split
    · exact .throw (by rintro ⟨⟩)
    · next htype =>
      refine .put ?_
      have hinode : ∀ j, (s.setInode i (s.inode i)).inode j = s.inode j := by
        intro j
        by_cases hj : j = i
        · rw [hj, Store.inode_setInode_self]
        · rw [Store.inode_setInode_of_ne hj]
      refine ⟨h.owns.shrink fun p hp _ => ⟨hp, Store.num_congr (hinode _) fun _ => rfl⟩,
        fun j => by rw [hinode]; exact Iff.rfl, fun j hj => ?_, fun j ip _ hj => ?_, ?_⟩
      · by_cases hji : j = i
        · rw [hji]
          exact htype
        · rw [Store.setInode_icache, update_of_ne hji] at hj
          exact h.cached j hj
      · by_cases hji : j = i
        · rw [hji, Store.setInode_icache, update_self] at hj
          cases hj
          rw [hji, hdisk]
          exact ⟨rfl, fun _ => .inr rfl⟩
        · rw [Store.setInode_icache, update_of_ne hji] at hj
          exact h.backed j ip hj
      · rw [Store.setInode_icache, update_self]
        rfl

theorem Inv.forget (h : Inv s) (i : Fin sb.ninodes) :
    Inv ({ s with icache := update s.icache i none } : Store sb) := by
  obtain ⟨t, ht⟩ : ∃ t : Store sb, t = { s with icache := update s.icache i none } := ⟨_, rfl⟩
  rw [← ht]
  have hdisk : t.disk = s.disk := by rw [ht]
  have hne : ∀ j ≠ i, t.icache j = s.icache j := fun j hj => by
    rw [ht]
    exact update_of_ne hj ..
  have hself : t.icache i = none := by
    rw [ht]
    exact update_self ..
  have hinode : ∀ j, Backed (t.inode j) (s.inode j) := by
    intro j
    have hbacked : Backed (sb.dinode s.disk j) (s.inode j) := by
      rw [Store.inode]
      cases hj : s.icache j with
      | none => exact ⟨rfl, fun _ => .inr rfl⟩
      | some ip => exact h.backed j ip hj
    by_cases hj : j = i
    · have : t.inode j = sb.dinode s.disk j := by rw [Store.inode, hj, hself, hdisk, Option.getD_none]
      rw [this]
      exact hbacked
    · have : t.inode j = s.inode j := by rw [Store.inode, Store.inode, hne j hj, hdisk]
      rw [this]
      exact ⟨rfl, fun _ => .inr rfl⟩
  have halloc : ∀ j, Allocated t j ↔ Allocated s j := fun j => by
    rw [Allocated, Allocated, Inode.type, Inode.type, (hinode j).1]
  refine ⟨?_, ?_, ?_⟩
  · have hfree : ∀ c, t.Free c ↔ s.Free c := fun c => by rw [Store.Free, Store.Free, hdisk]
    refine Owns.congr_free (h.owns.shrink fun p hp hnum => ⟨(halloc _).mp hp, ?_⟩) hfree
    cases p with
    | addr j k => exact ((hinode j).2 k).resolve_left hnum
    | entry j k =>
      simp only [Store.num] at hnum ⊢
      rcases (hinode j).2 12 with hzero | heq
      · exact absurd (if_pos hzero) hnum
      · rw [heq, hdisk]
  · intro j hj
    by_cases hji : j = i
    · rw [hji, hself] at hj
      cases hj
    · rw [hne j hji] at hj
      exact (halloc j).mpr (h.cached j hj)
  · intro j ip hj
    by_cases hji : j = i
    · rw [hji, hself] at hj
      cases hj
    · rw [hne j hji] at hj
      rw [hdisk]
      exact h.backed j ip hj

theorem run_ends (h : Inv s) (c : Call sb) : Finishes Allowed c.run s fun _ t => Inv t := by
  cases c with
  | readi i off n =>
    exact (ilock_ends h i).bind fun _ t ht => (readi_ends ht off n).bind fun _ u hu => .pure hu.inv
  | writei i src off n =>
    exact (ilock_ends h i).bind fun _ t ht => (writei_ends ht src off n).bind fun _ u hu => .pure hu.inv
  | itrunc i => exact (ilock_ends h i).bind fun _ t ht => (itrunc_ends ht).mono fun _ u hu => hu.inv
  | forget i => exact .get (.put (h.forget i))

structure Owned (s : Store sb) : Prop where
  inData : ∀ p, Allocated s p.inum → s.num p ≠ 0 → sb.InData (s.num p)
  once : ∀ p q, Allocated s p.inum → Allocated s q.inum → s.num p ≠ 0 → s.num p = s.num q → p = q
  marked : ∀ p, Allocated s p.inum → s.num p ≠ 0 → sb.bit s.disk (s.num p).toNat = true
  metadata : ∀ b : Word, b.toNat < sb.size → ¬sb.InData b → sb.bit s.disk b.toNat = true

theorem Owned.owns (h : Owned s) : s.OwnsOn (slots (Allocated s)) where
  inArea := h.inData
  once := h.once
  used := fun p hp hne hfree => by
    rw [Store.Free, h.marked p hp hne] at hfree
    cases hfree.2
  free := fun b hb => by
    by_contra hout
    rw [Store.Free] at hb
    rw [h.metadata b hb.1 hout] at hb
    cases hb.2

theorem Inv.owned (h : Inv s) : Owned s where
  inData := h.owns.inArea
  once := h.owns.once
  marked := fun p hp hne => by
    by_contra hbit
    exact h.owns.used p hp hne ⟨(h.owns.inArea p hp hne).2, by simpa using hbit⟩
  metadata := fun b hb hout => by
    by_contra hbit
    exact hout (h.owns.free b ⟨hb, by simpa using hbit⟩)

def boot (disk : Word → Block) : Store sb := ⟨disk, fun _ => none⟩

theorem inv_boot (h : Owned (boot disk : Store sb)) : Inv (boot disk : Store sb) :=
  ⟨h.owns, nofun, nofun⟩

structure Guarded (s : Store sb) : Prop where
  bfree : ∀ c : Call sb, c.run s ≠ .error .freeingFreeBlock
  balloc : ∀ b t, balloc s = .ok (b, t) → sb.InData b ∧ ∀ p, Allocated s p.inum → s.num p ≠ b

theorem Inv.guarded (h : Inv s) : Guarded s where
  bfree := fun c hc => (run_ends h c).of_error hc rfl
  balloc := fun b t hb => by
    have htook := (balloc_ends h.owns closed_slots).of_ok hb
    refine ⟨htook.inData, fun p hp heq => ?_⟩
    have hnum := htook.num p hp
    exact htook.new p hp (by rw [hnum, heq]; exact htook.inData.ne_zero) (hnum.trans heq)

theorem blocks_owned {disk : Word → Block} (hdisk : Owned (boot disk : Store sb)) {es : List (Store sb × Call sb)}
    (h : Run Step (boot disk) es t) : Run.Always (fun s => Owned s ∧ Guarded s) es t := by
  have hstep : ∀ (s : Store sb) c t, Step s c t → True → Inv s → Inv t :=
    fun s c t h _ hs => (run_ends hs c).of_ok h
  obtain ⟨hes, hlast⟩ := h.always_invariant hstep (fun _ _ => trivial) (inv_boot hdisk)
  exact ⟨fun e he => ⟨(hes e he).owned, (hes e he).guarded⟩, hlast.owned, hlast.guarded⟩

def tiny : Superblock := ⟨8, 5, 2, 1, 2, by decide, by decide, by decide⟩

def tinyDisk : Word → Block := fun b =>
  if b = 1 then Block.zero.setWord 16 2
  else if b = 2 then update Block.zero 0 7
  else .zero

theorem owned_tiny : Owned (boot tinyDisk : Store tiny) := by
  have haddrs : ∀ (i : Fin tiny.ninodes) (k : Fin 13), (tiny.dinode tinyDisk i).addrs k = 0 := by decide +kernel
  have hnum : ∀ p, (boot tinyDisk : Store tiny).num p = 0 := by
    intro p
    cases p with
    | addr i k => exact haddrs i k
    | entry i j => exact if_pos (haddrs i 12)
  refine ⟨fun p _ h => absurd (hnum p) h, fun p _ _ _ h => absurd (hnum p) h, fun p _ h => absurd (hnum p) h, ?_⟩
  intro b hb hout
  have hlt : b.toNat < 3 := by
    by_contra hge
    exact hout ⟨Nat.le_of_not_lt hge, hb⟩
  have hbits : ∀ n < 3, tiny.bit tinyDisk n = true := by decide +kernel
  exact hbits _ hlt

def tinyWrite : Call tiny := .writei ⟨1, by decide⟩ (fun _ => 65) 0 600

theorem blocks_owned_of_write :
    ∃ t, Run Step (boot tinyDisk) [(boot tinyDisk, tinyWrite)] t ∧
      Run.Always (fun s => Owned s ∧ Guarded s) [(boot tinyDisk, tinyWrite)] t := by
  obtain ⟨a, t, ht, -⟩ := exists_of_ok_any (x := tinyWrite.run) (s := boot tinyDisk) (p := fun _ => true)
    (by decide +kernel)
  exact ⟨t, .single ht, blocks_owned owned_tiny (.single ht)⟩

end Xv6.Disk
