import Xv6.Mkfs.Code
import Xv6.Disk.Ownership

namespace Xv6.Mkfs

open Function Disk Lib Prog

abbrev Inum := Fin sb.ninodes

abbrev Place := Disk.Slot sb.ninodes

def start : Place → Nat
  | .addr _ k => 512 * k
  | .entry _ j => 512 * (12 + j)

def IsData : Place → Prop
  | .addr _ k => k ≠ 12
  | .entry .. => True

def placeOf (i : Inum) (fbn : Nat) (h : fbn < 140) : Place :=
  if hd : fbn < 12 then .addr i ⟨fbn, direct_lt hd⟩ else .entry i ⟨fbn - 12, indirect_lt h hd⟩

def need (n : Nat) : Nat := (n + 511) / 512 + if 6144 < n then 1 else 0

section Places

variable (h : fbn < 140)

theorem inum_placeOf : (placeOf i fbn h).inum = i := by
  unfold placeOf
  split <;> rfl

theorem start_placeOf : start (placeOf i fbn h) = 512 * fbn := by
  unfold placeOf
  split
  · rfl
  · simp only [start]
    omega

theorem isData_placeOf : IsData (placeOf i fbn h) := by
  unfold placeOf
  split
  · next hd => exact fun heq => absurd (congrArg Fin.val heq) (by simp only; omega)
  · trivial

omit h in
theorem addr_of_not_isData (hp : ¬ IsData p) : p = .addr p.inum 12 := by
  cases p with
  | addr i k => rw [not_not.mp hp]; rfl
  | entry i j => exact absurd trivial hp

omit h in
theorem start_mod (p : Place) : start p % 512 = 0 := by
  cases p <;> simp only [start] <;> omega

omit h in
theorem eq_of_start (hp : IsData p) (hq : IsData q) (hinum : p.inum = q.inum) (hstart : start p = start q) : p = q := by
  cases p with
  | addr i k =>
    have hk : k.val ≠ 12 := fun heq => hp (Fin.ext heq)
    cases q with
    | addr j l =>
      cases hinum
      simp only [start] at hstart
      rw [show k = l from Fin.ext (by omega)]
    | entry j l =>
      simp only [start] at hstart
      omega
  | entry i k =>
    cases q with
    | addr j l =>
      have hl : l.val ≠ 12 := fun heq => hq (Fin.ext heq)
      simp only [start] at hstart
      omega
    | entry j l =>
      cases hinum
      simp only [start] at hstart
      rw [show k = l from Fin.ext (by omega)]

end Places

theorem need_succ (n : Nat) :
    need (n + 1) = need n + (if n % 512 = 0 then 1 else 0) + if n = 6144 then 1 else 0 := by
  unfold need
  split_ifs <;> omega

theorem need_mono (h : m ≤ n) : need m ≤ need n := by
  unfold need
  have hdiv : (m + 511) / 512 ≤ (n + 511) / 512 := Nat.div_le_div_right (by omega)
  split_ifs <;> omega

def Fresh (fb : Nat) (b : Word) : Prop := fb ≤ b.toNat

/-- The area that blocks are handed out from.  It ends with the image only when a block is read. -/
def Area (b : Word) : Prop := nmeta ≤ b.toNat

structure Holds (data : Inum → List Byte) (S : Place → Prop) (fb : Nat) (st : Store sb) : Prop where
  owns : Owns 0 Area (Fresh fb) st.num fun _ => True
  used : ∀ p, st.num p ≠ 0 ↔ S p
  zero : ∀ b, Fresh fb b → st.disk b = .zero
  bytes : ∀ p, S p → IsData p → ∀ k : Fin 512, st.disk (st.num p) k = (data p.inum).getD (start p + k) 0

namespace Holds

variable {data : Inum → List Byte} {S : Place → Prop} {fb : Nat} {st : Store sb} {i : Inum} {p : Place}

theorem congr (h : Holds data S fb st) (hS : ∀ p, S' p ↔ S p) : Holds data S' fb st := by
  have heq : S' = S := funext fun p => propext (hS p)
  rwa [heq]

theorem of_num (h : Holds data S fb st) (hnum : ∀ p, st'.num p = st.num p)
    (hdisk : ∀ b, Area b → st'.disk b = st.disk b) (hfb : nmeta ≤ fb) : Holds data S fb st' where
  owns := h.owns.shrink fun p _ _ => ⟨trivial, hnum p⟩
  used := fun p => by rw [hnum]; exact h.used p
  zero := fun b hb => by rw [hdisk b (hfb.trans hb)]; exact h.zero b hb
  bytes := fun p hp hd k => by
    rw [hnum, hdisk _ (h.owns.inArea p trivial ((h.used p).mpr hp))]
    exact h.bytes p hp hd k

theorem num_lt (h : Holds data S fb st) (hp : S p) : (st.num p).toNat < fb :=
  Nat.not_le.mp (h.owns.used p trivial ((h.used p).mpr hp))

theorem num_ne_zero (h : Holds data S fb st) (hp : S p) : st.num p ≠ 0 := (h.used p).mpr hp

theorem num_inj (h : Holds data S fb st) (hp : S p) (heq : st.num p = st.num q) : p = q :=
  h.owns.once p q trivial trivial (h.num_ne_zero hp) heq

variable {b : Word}

theorem fresh_succ (hb : b.toNat = fb) (c : Word) : Fresh (fb + 1) c ↔ Fresh fb c ∧ c ≠ b := by
  unfold Fresh
  rw [ne_eq, ← BitVec.toNat_inj]
  omega

theorem ne_zero_of_area (hb : Area b) : b ≠ 0 := by
  rintro rfl
  exact absurd (show 59 ≤ 0 from hb) (by decide)

theorem setAddr (h : Holds data S fb st) (hb : b.toNat = fb) (hfb : nmeta ≤ fb)
    (hk : ¬ S (.addr i k)) (hlen : (data i).length ≤ 512 * k) :
    Holds data (fun p => S p ∨ p = .addr i k) (fb + 1) (st.setAddr i k b) := by
  have hfresh : Fresh fb b := hb.ge
  have harea : Area b := hfb.trans hb.ge
  have hself : (st.setAddr i k b).num (.addr i k) = b := Store.num_setAddr_self k b
  have hentry : ∀ j, k = 12 → (st.setAddr i k b).num (.entry i j) = 0 := by
    rintro j rfl
    rw [Store.num_setAddr_entry, if_neg (ne_zero_of_area harea), h.zero b hfresh, Block.word_zero]
  have hold : ∀ j, k = 12 → st.num (.entry i j) = 0 := by
    rintro j rfl
    have haddr : st.num (.addr i 12) = 0 := by
      by_contra hne
      exact hk ((h.used _).mp hne)
    exact if_pos haddr
  have hother : ∀ p, p ≠ .addr i k → (st.setAddr i k b).num p = st.num p := by
    intro p hp
    by_cases hj : ∃ j, p = .entry i j ∧ k = 12
    · obtain ⟨j, rfl, hk12⟩ := hj
      rw [hentry j hk12, hold j hk12]
    · exact Store.num_setAddr k b hp fun j hpj hk12 => hj ⟨j, hpj, hk12⟩
  obtain ⟨htake, hnew⟩ := h.owns.take hfresh (fresh_succ hb)
  refine ⟨?_, fun p => ?_, fun c hc => ?_, fun p hp hd m => ?_⟩
  · exact htake.give harea (fun hf => ((fresh_succ hb b).mp hf).2 rfl) hnew hself fun p _ hp _ => hother p hp
  · by_cases hp : p = .addr i k
    · rw [hp, hself]
      exact iff_of_true (ne_zero_of_area harea) (.inr rfl)
    · rw [hother p hp, h.used]
      exact ⟨.inl, fun h => h.resolve_right hp⟩
  · exact h.zero c ((fresh_succ hb c).mp hc).1
  · by_cases hpk : p = .addr i k
    · rw [hpk, hself]
      have hge : (data i).length ≤ 512 * k.val + m.val := by omega
      change st.disk b m = (data i).getD (512 * k.val + m.val) 0
      rw [h.zero b hfresh, List.getD_eq_getElem?_getD, List.getElem?_eq_none hge]
      rfl
    · rw [hother p hpk]
      exact h.bytes p (hp.resolve_right hpk) hd m

theorem inode_setBlock (hb : Area b) (data : Block) (i : Inum) : (st.setBlock b data).inode i = st.inode i := by
  refine Store.inode_congr rfl (Superblock.dinode_congr (update_of_ne ?_ ..))
  have hb : 59 ≤ b.toNat := hb
  intro heq
  have hnat := congrArg BitVec.toNat heq
  have hi : i.val < 200 := i.isLt
  rw [Superblock.iblock_toNat] at hnat
  simp only [sb] at hnat
  omega

theorem num_setBlock (h : Holds data S fb st) (hq : S q) (block : Block)
    (hp : ∀ i j, p = .entry i j → q ≠ .addr i 12) : (st.setBlock (st.num q) block).num p = st.num p := by
  have harea : Area (st.num q) := h.owns.inArea q trivial (h.num_ne_zero hq)
  cases p with
  | addr i k => exact congrFun (congrArg Inode.addrs (inode_setBlock harea block i)) k
  | entry i j =>
    refine Store.num_congr (inode_setBlock harea block i) fun _ => update_of_ne (fun heq => ?_) ..
    exact hp i j rfl (h.num_inj hq heq.symm)

theorem disk_setBlock (h : Holds data S fb st) (hp : S p) (hpq : p ≠ q) (block : Block) :
    (st.setBlock (st.num q) block).disk (st.num p) = st.disk (st.num p) :=
  update_of_ne (fun heq => hpq (h.num_inj hp heq)) ..

theorem zero_setBlock (h : Holds data S fb st) (hq : S q) (block : Block) (hc : Fresh fb c) :
    (st.setBlock (st.num q) block).disk c = .zero := by
  have hlt := h.num_lt hq
  have hne : c ≠ st.num q := by
    rintro rfl
    exact absurd hc (Nat.not_le.mpr hlt)
  exact (update_of_ne hne ..).trans (h.zero c hc)

theorem setEntry (h : Holds data S fb st) {j : Fin 128} (hb : b.toNat = fb) (hfb : nmeta ≤ fb)
    (h12 : S (.addr i 12)) (hlen : (data i).length ≤ 512 * (12 + j)) :
    Holds data (fun p => S p ∨ p = .entry i j) (fb + 1)
      (st.setBlock (st.num (.addr i 12)) ((st.disk (st.num (.addr i 12))).setWord j b)) := by
  have hfresh : Fresh fb b := hb.ge
  have harea : Area b := hfb.trans hb.ge
  have hne : st.num (.addr i 12) ≠ 0 := h.num_ne_zero h12
  obtain ⟨t, ht⟩ : ∃ t : Store sb, t =
    st.setBlock (st.num (.addr i 12)) ((st.disk (st.num (.addr i 12))).setWord j b) := ⟨_, rfl⟩
  rw [← ht]
  have haddr : t.num (.addr i 12) = st.num (.addr i 12) := by
    rw [ht]
    exact h.num_setBlock h12 _ nofun
  have hword : ∀ l, t.num (.entry i l) = if l = j then b else st.num (.entry i l) := by
    intro l
    have hnew : t.num (.entry i l) = (t.disk (t.num (.addr i 12))).word l := 
      if_neg (show t.num (.addr i 12) ≠ 0 by rwa [haddr])
    have hold : st.num (.entry i l) = (st.disk (st.num (.addr i 12))).word l := if_neg hne
    rw [hnew, hold, haddr, ht, Store.setBlock_disk, update_self, Block.word_setWord]
  have hself : t.num (.entry i j) = b := by rw [hword, if_pos rfl]
  have hother : ∀ p, p ≠ .entry i j → t.num p = st.num p := by
    intro p hp
    by_cases hl : ∃ l, p = .entry i l
    · obtain ⟨l, rfl⟩ := hl
      rw [hword, if_neg fun hlj => hp (by rw [hlj])]
    · rw [ht]
      refine h.num_setBlock h12 _ fun i' l hpl heq => hl ⟨l, ?_⟩
      cases heq
      exact hpl
  obtain ⟨htake, hnew⟩ := h.owns.take hfresh (fresh_succ hb)
  have hzero : ∀ c, Fresh fb c → t.disk c = .zero := fun c hc => by
    rw [ht]
    exact h.zero_setBlock h12 _ hc
  refine ⟨?_, fun p => ?_, fun c hc => hzero c ((fresh_succ hb c).mp hc).1, fun p hp hd m => ?_⟩
  · exact htake.give harea (fun hf => ((fresh_succ hb b).mp hf).2 rfl) hnew hself fun p _ hp _ => hother p hp
  · by_cases hp : p = .entry i j
    · rw [hp, hself]
      exact iff_of_true (ne_zero_of_area harea) (.inr rfl)
    · rw [hother p hp, h.used]
      exact ⟨.inl, fun h => h.resolve_right hp⟩
  · by_cases hpj : p = .entry i j
    · rw [hpj, hself]
      have hge : (data i).length ≤ 512 * (12 + j.val) + m.val := by omega
      change t.disk b m = (data i).getD (512 * (12 + j.val) + m.val) 0
      rw [hzero b hfresh, List.getD_eq_getElem?_getD, List.getElem?_eq_none hge]
      rfl
    · have hS := hp.resolve_right hpj
      have hp12 : p ≠ .addr i 12 := by
        rintro rfl
        exact hd rfl
      rw [hother p hpj, ht, h.disk_setBlock hS hp12]
      exact h.bytes p hS hd m

theorem write (h : Holds data S fb st) (src : List Byte) (hq : S q) (hd : IsData q)
    (hlen : (data q.inum).length = start q + n) (hn : n + src.length ≤ 512) :
    Holds (update data q.inum (data q.inum ++ src)) S fb
      (st.setBlock (st.num q) (splice (st.disk (st.num q)) n src.length fun k => src.getD k 0)) := by
  have hnum : ∀ p, (st.setBlock (st.num q) (splice (st.disk (st.num q)) n src.length fun k => src.getD k 0)).num p =
      st.num p := by
    intro p
    refine h.num_setBlock hq _ fun i j _ heq => ?_
    rw [heq] at hd
    exact hd rfl
  refine ⟨h.owns.shrink fun p _ _ => ⟨trivial, hnum p⟩, fun p => by rw [hnum]; exact h.used p,
    fun c hc => h.zero_setBlock hq _ hc, fun p hp hdp m => ?_⟩
  rw [hnum]
  by_cases hpq : p = q
  · subst hpq
    rw [Store.setBlock_disk, update_self, update_self, splice, h.bytes p hp hd]
    simp only [List.getD_eq_getElem?_getD, List.getElem?_append, hlen]
    split
    · next hin =>
      rw [if_neg (by omega), show start p + m.val - (start p + n) = m.val - n by omega]
    · next hout =>
      split
      · rfl
      · rw [List.getElem?_eq_none (by omega), List.getElem?_eq_none (by omega)]
  · rw [h.disk_setBlock hp hpq, h.bytes p hp hdp]
    by_cases hi : p.inum = q.inum
    · have hstart : start p ≠ start q := fun heq => hpq (eq_of_start hdp hd hi heq)
      have hmod := start_mod p
      have hmod' := start_mod q
      rw [hi, update_self]
      simp only [List.getD_eq_getElem?_getD, List.getElem?_append, hlen]
      split
      · rfl
      · rw [List.getElem?_eq_none (by omega), List.getElem?_eq_none (by omega)]
    · rw [update_of_ne hi]

end Holds

end Xv6.Mkfs
