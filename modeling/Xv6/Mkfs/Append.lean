import Xv6.Mkfs.Contents
import Xv6.Lib.Pool
import Mathlib.Algebra.Order.BigOperators.Group.Finset

namespace Xv6.Mkfs

open Function Disk Lib Prog

section Sectors

variable {α : Type}

theorem sector_eq (h : b.toNat < 8388608) : sector b = b := by
  apply BitVec.eq_of_toNat_eq
  have hmul : (b * 512).toNat = b.toNat * 512 := by
    rw [BitVec.toNat_mul]
    exact Nat.mod_eq_of_lt (by change b.toNat * 512 < 2 ^ 32; omega)
  rw [sector, BitVec.toNat_udiv, hmul]
  exact Nat.mul_div_cancel _ (by decide)

theorem rsect_bind (h : b.toNat < 1000) (hf : Finishes E (f (s.disk b)) s R) :
    Finishes E (rsect b >>= f) s R := by
  refine .bind (Q := fun a t => a = s.disk b ∧ t = s) ?_ ?_
  · refine .get ?_
    rw [sector_eq (by omega), if_neg (by rw [BitVec.le_def]; exact Nat.not_le.mpr h)]
    exact .pure ⟨rfl, rfl⟩
  · rintro _ _ ⟨rfl, rfl⟩
    exact hf

theorem rsect_full (h : 1000 ≤ b.toNat) (hb : b.toNat < 8388608) (hE : E .failure) :
    Finishes E (rsect b >>= f) s R := by
  refine .bind (Q := fun _ _ => False) ?_ fun _ _ => False.elim
  refine .get ?_
  rw [sector_eq hb, if_pos (by rw [BitVec.le_def]; exact h)]
  exact .throw hE

theorem wsect_spec (h : b.toNat < 1000)
    (hQ : Q () { s with disk := update s.disk b data }) : Finishes E (wsect b data) s Q := by
  rw [← sector_eq (show b.toNat < 8388608 by omega)] at hQ
  exact hQ

theorem wsect_bind (h : b.toNat < 1000)
    (hf : Finishes E (f ()) { s with disk := update s.disk b data } R) :
    Finishes E (wsect b data >>= f) s R :=
  Finishes.bind (Q := fun _ t => t = { s with disk := update s.disk b data }) (wsect_spec h rfl)
    fun _ _ ht => ht ▸ hf

theorem bump_bind (hf : Finishes E (f s.freeblock) { s with freeblock := s.freeblock + 1 } R) :
    Finishes E (bump >>= f) s R := hf

end Sectors

def cached (disk : Word → Block) (i : Inum) (din : Inode) : Store sb :=
  ⟨disk, update (fun _ => none) i (some din)⟩

section Allocation

variable {s : Image}

theorem inode_cached_self : (cached disk i din).inode i = din := by
  simp [Store.inode, cached]

theorem cached_setAddr (k : Fin 13) (b : Word) : (cached disk i din).setAddr i k b =
    cached disk i { din with addrs := update din.addrs k b } := by
  rw [Store.setAddr, inode_cached_self, Store.setInode, cached, update_idem]
  rfl

theorem num_cached (k : Fin 13) : (cached disk i din).num (.addr i k) = din.addrs k := by
  rw [Store.num, inode_cached_self]

def InUse (data : Inum → List Byte) (p : Place) : Prop := start p < (data p.inum).length

def InUseNext (data : Inum → List Byte) (i : Inum) (p : Place) : Prop :=
  start p < (data p.inum).length + if p.inum = i then 1 else 0

structure Kept (s t : Image) (din din' : Inode) : Prop where
  freeinode : t.freeinode = s.freeinode
  disk : ∀ b, ¬ Area b → t.disk b = s.disk b
  typeMajor : din'.typeMajor = din.typeMajor
  minorNlink : din'.minorNlink = din.minorNlink

theorem Kept.trans (h : Kept s t din din') (h' : Kept t u din' din'') :
    Kept s u din din'' :=
  ⟨h'.freeinode.trans h.freeinode, fun b hb => (h'.disk b hb).trans (h.disk b hb),
    h'.typeMajor.trans h.typeMajor, h'.minorNlink.trans h.minorNlink⟩

theorem freeblock_succ (h : s.freeblock.toNat < 2000) : (s.freeblock + 1).toNat = s.freeblock.toNat + 1 := by
  rw [BitVec.toNat_add]
  exact Nat.mod_eq_of_lt (by change s.freeblock.toNat + 1 < 2 ^ 32; omega)

structure Filled (data : Inum → List Byte) (S : Place → Prop) (i : Inum) (p : Place) (s : Image) (din din' : Inode)
    (t : Image) : Prop where
  holds : Holds data (fun q => S q ∨ q = p) t.freeblock.toNat (cached t.disk i din')
  kept : Kept s t din din'
  count : (S p ∧ t.freeblock = s.freeblock) ∨ (¬ S p ∧ t.freeblock.toNat = s.freeblock.toNat + 1 ∧
    (cached t.disk i din').num p = s.freeblock)

theorem Filled.of_used (h : Holds data S s.freeblock.toNat (cached s.disk i din)) (hp : S p) :
    Filled data S i p s din din s where
  holds := h.congr fun _ => ⟨fun hq => hq.elim id (· ▸ hp), .inl⟩
  kept := ⟨rfl, fun _ _ => rfl, rfl, rfl⟩
  count := .inl ⟨hp, rfl⟩

theorem fillAddr_spec (h : Holds data S s.freeblock.toNat (cached s.disk i din)) (hfb : nmeta ≤ s.freeblock.toNat)
    (hlt : s.freeblock.toNat < 2000) (k : Fin 13) (hk : S (.addr i k) ∨ (data i).length ≤ 512 * k) :
    Finishes E (fillAddr din k) s fun din' t => Filled data S i (.addr i k) s din din' t := by
  have hused := h.used (.addr i k)
  rw [num_cached] at hused
  unfold fillAddr
  split
  · next hzero =>
    have hnot : ¬ S (.addr i k) := fun hS => hused.mpr hS hzero
    refine bump_bind (.pure ?_)
    refine ⟨?_, ⟨rfl, fun _ _ => rfl, rfl, rfl⟩, .inr ⟨hnot, freeblock_succ hlt, ?_⟩⟩
    · have hset := h.setAddr rfl hfb hnot (hk.resolve_left hnot)
      rw [cached_setAddr] at hset
      rw [freeblock_succ hlt]
      exact hset
    · rw [num_cached]
      exact update_self ..
  · next hne => exact .pure (.of_used h (hused.mp hne))

theorem fillEntry_spec (h : Holds data S s.freeblock.toNat (cached s.disk i din)) (hfb : nmeta ≤ s.freeblock.toNat)
    (hlt : s.freeblock.toNat < 2000) (h12 : S (.addr i 12)) (j : Fin 128)
    (hj : S (.entry i j) ∨ (data i).length ≤ 512 * (12 + j)) (hE : 1000 < s.freeblock.toNat → E .failure) :
    Finishes E (fillEntry (din.addrs 12) j) s fun x t =>
      Filled data S i (.entry i j) s din din t ∧ x = (cached t.disk i din).num (.entry i j) := by
  have hused := h.used (.entry i j)
  have hb : (din.addrs 12).toNat < s.freeblock.toNat := by
    have := h.num_lt h12
    rwa [num_cached] at this
  have hne : din.addrs 12 ≠ 0 := by
    have := h.num_ne_zero h12
    rwa [num_cached] at this
  have harea : Area (din.addrs 12) := by
    have := h.owns.inArea (.addr i 12) trivial (h.num_ne_zero h12)
    rwa [num_cached] at this
  have hentry : ∀ disk, (cached disk i din).num (.entry i j) = (disk (din.addrs 12)).word j := by
    intro disk
    rw [Store.num, inode_cached_self, if_neg hne]
    rfl
  by_cases hfull : 1000 ≤ (din.addrs 12).toNat
  · exact rsect_full hfull (by omega) (hE (by omega))
  · refine rsect_bind (Nat.not_le.mp hfull) ?_
    split
    · next hzero =>
      have hnot : ¬ S (.entry i j) := fun hS => hused.mpr hS (by rw [hentry, hzero])
      have hnew : (cached (update s.disk (din.addrs 12)
          ((s.disk (din.addrs 12)).setWord j s.freeblock)) i din).num (.entry i j) = s.freeblock := by
        rw [hentry, update_self, Block.word_setWord_self]
      refine bump_bind (wsect_bind (Nat.not_le.mp hfull) (.pure ?_))
      refine ⟨⟨?_, ?_, .inr ⟨hnot, freeblock_succ hlt, hnew⟩⟩, hnew.symm⟩
      · have hset := h.setEntry rfl hfb h12 (hj.resolve_left hnot)
        rw [num_cached] at hset
        dsimp only
        rw [freeblock_succ hlt]
        exact hset
      · refine ⟨rfl, fun c hc => update_of_ne ?_ .., rfl, rfl⟩
        rintro rfl
        exact hc harea
    · next hword =>
      refine .pure ⟨.of_used h (hused.mp ?_), (hentry _).symm⟩
      rw [hentry]
      exact hword

theorem inUseNext_iff (h : fbn < 140) (hlen : (data i).length / 512 = fbn) (p : Place) :
    InUseNext data i p ↔ InUse data p ∨ p = placeOf i fbn h ∨ 12 ≤ fbn ∧ p = .addr i 12 := by
  constructor
  · intro hp
    by_cases hlt : start p < (data p.inum).length
    · exact .inl hlt
    unfold InUseNext at hp
    by_cases hi : p.inum = i
    · rw [if_pos hi, hi] at hp
      rw [hi] at hlt
      have hmod := start_mod p
      refine .inr ?_
      by_cases hd : IsData p
      · refine .inl (eq_of_start hd (isData_placeOf h) (hi.trans (inum_placeOf h).symm) ?_)
        rw [start_placeOf]
        omega
      · have hp12 := addr_of_not_isData hd
        rw [hi] at hp12
        have hstart : start p = 512 * 12 := by rw [hp12]; rfl
        exact .inr ⟨by omega, hp12⟩
    · rw [if_neg hi] at hp
      exact absurd hp hlt
  · rintro (hp | rfl | ⟨h12, rfl⟩)
    · exact Nat.lt_of_lt_of_le hp (Nat.le_add_right ..)
    · unfold InUseNext
      rw [inum_placeOf, if_pos rfl, start_placeOf]
      omega
    · change 512 * 12 < (data i).length + if i = i then 1 else 0
      rw [if_pos rfl]
      omega

theorem inUse_addr (hn : (data i).length = n) (k : Fin 13) : InUse data (.addr i k) ↔ 512 * k.val < n := by
  rw [← hn]
  rfl

theorem inUse_entry (hn : (data i).length = n) (j : Fin 128) :
    InUse data (.entry i j) ↔ 512 * (12 + j.val) < n := by
  rw [← hn]
  rfl

theorem findBlock_spec (hn : (data i).length = n)
    (h : Holds data (InUse data) s.freeblock.toNat (cached s.disk i din))
    (hfb : nmeta ≤ s.freeblock.toNat) (hle : s.freeblock.toNat ≤ 1000) (hlen : n / 512 < 140)
    (hE : 1000 + need n < s.freeblock.toNat + need (n + 1) → E .failure) :
    Finishes E (findBlock din (n / 512) hlen) s fun r t =>
      Holds data (InUseNext data i) t.freeblock.toNat (cached t.disk i r.1) ∧
        r.2 = (cached t.disk i r.1).num (placeOf i (n / 512) hlen) ∧ Kept s t din r.1 ∧
        t.freeblock.toNat + need n = s.freeblock.toNat + need (n + 1) ∧
        (t.freeblock = s.freeblock ∨ t.freeblock.toNat = r.2.toNat + 1) := by
  have hneed := need_succ n
  have hiff := inUseNext_iff hlen (show (data i).length / 512 = n / 512 by rw [hn])
  unfold findBlock
  split
  · next hd =>
    have hplace : placeOf i (n / 512) hlen = .addr i ⟨n / 512, by omega⟩ := dif_pos hd
    have huse : InUse data (.addr i ⟨n / 512, by omega⟩) ↔ 512 * (n / 512) < n := inUse_addr hn _
    have hk : InUse data (.addr i ⟨n / 512, by omega⟩) ∨ (data i).length ≤ 512 * (n / 512) := by
      rw [huse, hn]
      omega
    refine (fillAddr_spec h hfb (by omega) _ hk).bind fun din' t ht => .pure ⟨?_, ?_, ht.kept, ?_, ?_⟩
    · refine ht.holds.congr fun p => (hiff p).trans ?_
      rw [hplace]
      simp only [show ¬ 12 ≤ n / 512 by omega, false_and, or_false]
    · rw [hplace, num_cached]
    · rcases ht.count with ⟨hold, hcount⟩ | ⟨hnew, hcount, -⟩
      · rw [huse] at hold
        rw [hcount, hneed, if_neg (by omega), if_neg (by omega)]
        rfl
      · rw [huse] at hnew
        rw [hcount, hneed, if_pos (by omega), if_neg (by omega)]
        omega
    · refine ht.count.imp (·.2) fun hnew => ?_
      have hx : (cached t.disk i din').num (.addr i ⟨n / 512, by omega⟩) = din'.addrs ⟨n / 512, by omega⟩ := num_cached _
      dsimp only
      rw [← hx, hnew.2.2, hnew.2.1]
  · next hd =>
    have hplace : placeOf i (n / 512) hlen = .entry i ⟨n / 512 - 12, by omega⟩ := dif_neg hd
    have huse12 : InUse data (.addr i 12) ↔ 6144 < n := inUse_addr hn 12
    have hk : InUse data (.addr i 12) ∨ (data i).length ≤ 512 * (12 : Fin 13).val := by
      rw [huse12, hn]
      change 6144 < n ∨ n ≤ 512 * 12
      omega
    refine (fillAddr_spec h hfb (by omega) 12 hk).bind fun din' t ht => ?_
    have hcount₁ : t.freeblock.toNat = s.freeblock.toNat + if n = 6144 then 1 else 0 := by
      rcases ht.count with ⟨hold, hcount⟩ | ⟨hnew, hcount, -⟩
      · rw [huse12] at hold
        rw [hcount, if_neg (by omega)]
        rfl
      · rw [huse12] at hnew
        rw [hcount, if_pos (by omega)]
    have huse : (InUse data (.entry i ⟨n / 512 - 12, by omega⟩) ∨
        (.entry i ⟨n / 512 - 12, by omega⟩ : Place) = .addr i 12) ↔ 512 * (n / 512) < n := by
      rw [inUse_entry hn]
      simp only [reduceCtorEq, or_false]
      omega
    refine .bind (fillEntry_spec ht.holds ?_ ?_ (.inr rfl) ⟨n / 512 - 12, by omega⟩ ?_ ?_) ?_
    · split at hcount₁ <;> omega
    · split at hcount₁ <;> omega
    · rw [huse, hn]
      change 512 * (n / 512) < n ∨ n ≤ 512 * (12 + (n / 512 - 12))
      omega
    · intro hfull
      refine hE ?_
      split at hcount₁ <;> split_ifs at hneed <;> omega
    · rintro x u ⟨hu, hx⟩
      refine .pure ⟨?_, ?_, ht.kept.trans hu.kept, ?_, ?_⟩
      · refine hu.holds.congr fun p => (hiff p).trans ?_
        rw [hplace]
        simp only [show 12 ≤ n / 512 by omega, true_and, or_assoc]
        exact or_congr_right or_comm
      · rw [hplace, hx]
      · rcases hu.count with ⟨hold, hcount⟩ | ⟨hnew, hcount, -⟩
        · rw [huse] at hold
          rw [hcount, hcount₁, hneed, if_neg (show ¬ n % 512 = 0 by omega)]
          omega
        · rw [huse] at hnew
          rw [hcount, hcount₁, hneed, if_pos (show n % 512 = 0 by omega)]
          omega
      · rcases hu.count with ⟨hold, hcount⟩ | ⟨-, hcount, hnum⟩
        · rw [huse] at hold
          refine .inl (BitVec.eq_of_toNat_eq ?_)
          rw [hcount, hcount₁, if_neg (by omega)]
          rfl
        · refine .inr ?_
          dsimp only
          rw [hx, hnum, hcount]

end Allocation

def appendTo (data : Inum → List Byte) (i : Inum) (p : List Byte) : Inum → List Byte :=
  update data i (data i ++ p)

def blocks (data : Inum → List Byte) : Nat := ∑ i, need (data i).length

def TooMuch (data : Inum → List Byte) : Prop := (∃ i, 71680 < (data i).length) ∨ 1000 < nmeta + blocks data

section Appending

variable {data : Inum → List Byte} {p : List Byte}

theorem appendTo_self : appendTo data i p i = data i ++ p := update_self ..

theorem appendTo_of_ne (h : j ≠ i) : appendTo data i p j = data j := update_of_ne h ..

theorem appendTo_nil : appendTo data i [] = data := by
  rw [appendTo, List.append_nil, update_eq_self]

theorem appendTo_appendTo : appendTo (appendTo data i p) i q = appendTo data i (p ++ q) := by
  rw [appendTo, appendTo_self, appendTo, update_idem, List.append_assoc, appendTo]

theorem blocks_appendTo (n m : Nat) (hn : (data i).length = n) (hm : p.length = m) :
    blocks (appendTo data i p) + need n = blocks data + need (n + m) := by
  have hsum := sum_update_add (fun _ (l : List Byte) => need l.length) data i (data i ++ p)
  rw [List.length_append, hn, hm] at hsum
  exact hsum

theorem TooMuch.mono (h : TooMuch data) (hle : ∀ j, (data j).length ≤ (data' j).length) : TooMuch data' := by
  rcases h with ⟨j, hj⟩ | h
  · exact .inl ⟨j, hj.trans_le (hle j)⟩
  · have hblocks : blocks data ≤ blocks data' := Finset.sum_le_sum fun j _ => need_mono (hle j)
    exact .inr (by omega)

structure Appending (data : Inum → List Byte) (i : Inum) (din : Inode) (off : Word) (s : Image) : Prop where
  holds : Holds data (InUse data) s.freeblock.toNat (cached s.disk i din)
  count : s.freeblock.toNat = nmeta + blocks data
  le : s.freeblock.toNat ≤ 1000
  off : off.toNat = (data i).length
  short : (data i).length ≤ 71680

theorem need_block (hm : 1 ≤ m) (h : n % 512 + m ≤ 512) : need (n + m) = need (n + 1) := by
  unfold need
  split_ifs <;> omega

theorem inUse_appendTo (hm : p.length = m) (hpos : 1 ≤ m) (h : (data i).length % 512 + m ≤ 512) (q : Place) :
    InUse (appendTo data i p) q ↔ InUseNext data i q := by
  unfold InUse InUseNext
  by_cases hq : q.inum = i
  · have hmod := start_mod q
    rw [hq, appendTo_self, List.length_append, if_pos rfl]
    omega
  · rw [appendTo_of_ne hq, if_neg hq]
    rfl

theorem splice_take {data : Block} {n m : Nat} (hm : m ≤ p.length) :
    splice data n m (fun k => p.getD k 0) =
      splice data n (p.take m).length fun k => (p.take m).getD k 0 := by
  have hlen : (p.take m).length = m := by
    rw [List.length_take]
    omega
  funext k
  rw [splice, splice, hlen]
  split
  · next hk => rw [List.getD_eq_getElem?_getD, List.getD_eq_getElem?_getD, List.getElem?_take_of_lt (by omega)]
  · rfl

theorem appendLoop_spec (fuel : Nat) (hfuel : p.length ≤ fuel) (h : Appending data i din off s) :
    Finishes (fun _ => TooMuch (appendTo data i p)) (appendLoop fuel din off p) s fun r t =>
      Appending (appendTo data i p) i r.1 r.2 t ∧ Kept s t din r.1 := by
  induction fuel generalizing data din off p s with
  | zero =>
    obtain rfl := List.eq_nil_of_length_eq_zero (Nat.le_zero.mp hfuel)
    rw [appendTo_nil]
    exact .pure ⟨h, ⟨rfl, fun _ _ => rfl, rfl, rfl⟩⟩
  | succ fuel ih =>
    unfold appendLoop
    split
    · next hnil =>
      subst hnil
      rw [appendTo_nil]
      exact .pure ⟨h, ⟨rfl, fun _ _ => rfl, rfl, rfl⟩⟩
    next hne =>
    have hpos : 0 < p.length := List.length_pos_iff.mpr hne
    obtain ⟨n, hn⟩ : ∃ n, (data i).length = n := ⟨_, rfl⟩
    have hoff : off.toNat = n := h.off.trans hn
    have hcount := h.count
    have hle := h.le
    have hshort := h.short
    have htotal := blocks_appendTo n p.length hn rfl
    have hmono : need (n + 1) ≤ need (n + p.length) := need_mono (by omega)
    rw [hoff]
    split
    case isFalse hlong =>
      refine .throw (.inl ⟨i, ?_⟩)
      rw [appendTo_self, List.length_append]
      omega
    case isTrue hlen =>
    have hE : 1000 + need n < s.freeblock.toNat + need (n + 1) → TooMuch (appendTo data i p) :=
      fun hfull => .inr (by omega)
    refine (findBlock_spec hn h.holds (by omega) hle hlen hE).bind fun r t hr => ?_
    obtain ⟨din', x⟩ := r
    obtain ⟨hholds, hx, hkept, hblocks, hlast⟩ := hr
    dsimp only at hholds hx hkept hlast ⊢
    have hplace : InUseNext data i (placeOf i (n / 512) hlen) := by
      refine (inUseNext_iff hlen (by rw [hn]) _).mpr (.inr (.inl rfl))
    have hlt : x.toNat < t.freeblock.toNat := by
      rw [hx]
      exact hholds.num_lt hplace
    have hneed := need_succ n
    have hbound : t.freeblock.toNat ≤ 1002 := by
      split_ifs at hneed <;> omega
    by_cases hfull : 1000 ≤ x.toNat
    · exact rsect_full hfull (by omega) (hE (by omega))
    refine rsect_bind (Nat.not_le.mp hfull) (wsect_bind (Nat.not_le.mp hfull) ?_)
    obtain ⟨m, hm⟩ : ∃ m, min p.length (512 - n % 512) = m := ⟨_, rfl⟩
    rw [hm]
    have hm1 : 1 ≤ m := by omega
    have htake : (p.take m).length = m := by
      rw [List.length_take]
      omega
    have hnext : Appending (appendTo data i (p.take m)) i din' (off + BitVec.ofNat 32 m)
        { t with disk := update t.disk x (splice (t.disk x) (n % 512) m fun k => p.getD k 0) } := by
      have hwrite := hholds.write (p.take m) (n := n % 512) hplace (isData_placeOf hlen)
        (by rw [inum_placeOf, start_placeOf, hn]; omega) (by omega)
      rw [inum_placeOf, ← hx, ← splice_take (by omega)] at hwrite
      have hchunk := blocks_appendTo n m hn htake
      have hsame := need_block hm1 (show n % 512 + m ≤ 512 by omega)
      refine ⟨hwrite.congr (inUse_appendTo htake hm1 (by rw [hn]; omega)), ?_, ?_, ?_, ?_⟩
      · dsimp only
        omega
      · dsimp only
        rcases hlast with hold | hnew
        · rw [hold]
          exact hle
        · omega
      · rw [appendTo_self, List.length_append, htake, hn, BitVec.toNat_add, BitVec.toNat_ofNat, hoff]
        omega
      · rw [appendTo_self, List.length_append, htake]
        omega
    have hrest := ih (p := p.drop m) (by rw [List.length_drop]; omega) hnext
    rw [appendTo_appendTo, List.take_append_drop] at hrest
    have hdisk : Kept t { t with disk := update t.disk x (splice (t.disk x) (n % 512) m fun k => p.getD k 0) }
        din' din' := by
      refine ⟨rfl, fun c hc => update_of_ne ?_ .., rfl, rfl⟩
      rintro rfl
      refine hc ?_
      rw [hx]
      exact hholds.owns.inArea _ trivial (hholds.num_ne_zero hplace)
    exact hrest.mono fun r u hu => ⟨hu.1, hkept.trans (hdisk.trans hu.2)⟩

end Appending

end Xv6.Mkfs
