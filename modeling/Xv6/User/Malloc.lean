import Xv6.User.FreeList

namespace Xv6.Umalloc

open Function Lib Prog Block

def part (c : Block) (n : Nat) : Block := ⟨c.addr + 8 * (c.size - n), n⟩

def remainder (c : Block) (n : Nat) : List Block := if c.size = n then [] else [⟨c.addr, c.size - n⟩]

theorem stop_part (h : n ≤ c.size) : (part c n).stop = c.stop := by
  simp only [part, stop]
  omega

theorem mem_remainder (hn : n ≤ c.size) (hd : d ∈ remainder c n) :
    d.addr = c.addr ∧ d.stop = (part c n).addr ∧ 0 < d.size := by
  rw [remainder] at hd
  split at hd
  · cases hd
  · rw [List.mem_singleton.1 hd]
    exact ⟨rfl, rfl, (by omega : 0 < c.size - n)⟩

theorem pairwise_remainder (hn : n ≤ c.size) (h : (x ++ z :: c :: y).Pairwise Below) :
    (x ++ z :: (remainder c n ++ y)).Pairwise Below := by
  rw [remainder]
  split
  · refine h.sublist ?_
    simp
  · have hstop : (Block.mk c.addr (c.size - n)).stop ≤ c.stop := by
      simp only [stop]
      omega
    simp only [List.pairwise_append, List.pairwise_cons, Below, List.cons_append, List.nil_append] at *
    grind

namespace Ready

variable {base start n : Nat} {s t : Heap} {free live : List Block} {c z : Block} {x y : List Block}

theorem replace (hring : ring base free = x ++ z :: y) (m : List Block) : ∃ free',
    ring base free' = x ++ z :: m ∧ ∀ d ∈ free', d ∈ m ∨ d ∈ free := by
  cases x with
  | nil =>
    obtain ⟨rfl, rfl⟩ := List.cons.inj hring
    exact ⟨m, rfl, fun d hd => .inl hd⟩
  | cons w x =>
    rw [ring, List.cons_append] at hring
    obtain ⟨rfl, rfl⟩ := List.cons.inj hring
    exact ⟨x ++ z :: m, rfl, by grind⟩

theorem carved (h : Ready base start s free live) (hring : ring base free = x ++ z :: c :: y) (hn : 0 < n)
    (hc : n ≤ c.size) (hsz : t.sz = s.sz) (htop : t.top = s.top) (hfreep : t.freep = z.addr)
    (hlisted : Listed t.hdr (x ++ z :: (remainder c n ++ y)) base) (hpart : (t.hdr (part c n).addr).size = n)
    (hlive : ∀ b ∈ live, (t.hdr b.addr).size = (s.hdr b.addr).size) :
    ∃ free', Ready base start t free' (part c n :: live) := by
  obtain ⟨free', hring', hmem⟩ := replace hring (remainder c n ++ y)
  have hcfree : c ∈ free := mem_free_of_post hring List.mem_cons_self
  have hcinside := h.free_inside c hcfree
  have hsub {i : Nat} (hi : (part c n).Has i) : c.Has i := by
    rw [Has, stop_part hc] at hi
    exact ⟨(Nat.le_add_right ..).trans hi.1, hi.2⟩
  have hrem {d : Block} (hd : d ∈ remainder c n) {i : Nat} (hi : d.Has i) : c.Has i ∧ i < (part c n).addr := by
    obtain ⟨haddr, hstop, -⟩ := mem_remainder hc hd
    rw [Has, haddr, hstop] at hi
    have := stop_part hc ▸ (part c n).addr_le_stop
    exact ⟨⟨hi.1, by omega⟩, hi.2⟩
  have hbelow := h.below
  rw [hring] at hbelow
  refine ⟨free', ⟨h.base_pos, h.base_lt, hsz ▸ h.start_le, hsz ▸ h.sz_lt, hsz ▸ htop ▸ h.sz_le⟩, hring' ▸ hlisted,
    hring' ▸ pairwise_remainder hc hbelow, ⟨z, hring' ▸ by simp, hfreep.symm⟩, fun d hd => ?_,
    List.forall_mem_cons.2 ⟨⟨hn, ?_, ?_⟩, hsz ▸ h.live_inside⟩,
    List.forall_mem_cons.2 ⟨hpart, fun b hb => (hlive b hb).trans (h.live_size b hb)⟩,
    List.forall_mem_cons.2 ⟨fun d hd i hi => ?_, fun b hb d hd i hi => ?_⟩,
    List.pairwise_cons.2 ⟨fun b hb i hi => (h.live_free b hb c hcfree).symm i (hsub hi), h.live_apart⟩⟩
  · rw [hsz]
    obtain hd | hd := hmem d hd
    · obtain hd | hd := List.mem_append.1 hd
      · obtain ⟨haddr, hstop, hpos⟩ := mem_remainder hc hd
        have := hcinside.stop_le
        have := stop_part hc ▸ (part c n).addr_le_stop
        exact ⟨hpos, haddr ▸ hcinside.start_le, by omega⟩
      · exact h.free_inside d (mem_free_of_post hring (List.mem_cons_of_mem _ hd))
    · exact h.free_inside d hd
  · exact hcinside.start_le.trans (Nat.le_add_right ..)
  · rw [stop_part hc, hsz]
    exact hcinside.stop_le
  · have hd' : d ∈ ring base free' := List.mem_cons_of_mem _ hd
    rw [hring', ← List.singleton_append, ← List.append_assoc] at hd'
    have hsplit : x ++ z :: c :: y = (x ++ [z]) ++ c :: y := by simp
    rw [hsplit] at hbelow
    obtain ⟨-, hcy, hxc⟩ := List.pairwise_append.1 hbelow
    intro hdi
    obtain hd' | hd' := List.mem_append.1 hd'
    · exact (hxc d hd' c List.mem_cons_self).apart i hdi (hsub hi)
    · obtain hd' | hd' := List.mem_append.1 hd'
      · exact absurd hi.1 (Nat.not_le.2 (hrem hd' hdi).2)
      · exact ((List.pairwise_cons.1 hcy).1 d hd').apart i (hsub hi) hdi
  · intro hdi
    obtain hd | hd := hmem d hd
    · obtain hd | hd := List.mem_append.1 hd
      · exact h.live_free b hb c hcfree i hi (hrem hd hdi).1
      · exact h.live_free b hb d (mem_free_of_post hring (List.mem_cons_of_mem _ hd)) i hi hdi
    · exact h.live_free b hb d hd i hi hdi

theorem taken (h : Ready base start s free live) (hring : ring base free = x ++ z :: c :: y) (hn : 0 < n)
    (hc : n ≤ c.size) : ∃ t free', takeFrom n z.addr c.addr s = .ok ((part c n).addr + 8, t) ∧ t.sz = s.sz ∧
      Ready base start t free' (part c n :: live) := by
  have hlisted := h.listed
  have hbelow := h.below
  rw [hring] at hlisted hbelow
  obtain ⟨hx, hz, hcy, hy⟩ := listed_append.1 hlisted
  obtain ⟨-, hzbelow, hxbelow⟩ := List.pairwise_append.1 hbelow
  obtain ⟨hzbelow, hcbelow⟩ := List.pairwise_cons.1 hzbelow
  have hcinside := h.free_inside c (mem_free_of_post hring List.mem_cons_self)
  have hmem {d : Block} (hd : d ∈ x ++ z :: c :: y) := h.mapped (hring ▸ hd)
  obtain ⟨-, hztop, -⟩ := hmem (d := z) (by simp)
  obtain ⟨-, hctop, hcstop⟩ := hmem (d := c) (by simp)
  have hxlt {d : Block} (hd : d ∈ x) : d.addr < z.addr ∧ d.addr < c.addr :=
    ⟨(hxbelow d hd z (by simp)).lt, (hxbelow d hd c (by simp)).lt⟩
  have hylt {d : Block} (hd : d ∈ y) : z.addr < d.addr ∧ c.stop < d.addr :=
    ⟨(hzbelow d (by simp [hd])).lt, (List.pairwise_cons.1 hcbelow).1 d hd⟩
  have hzc : z.addr < c.addr := (hzbelow c (by simp)).lt
  have hpart := stop_part hc
  have hpartaddr : (part c n).addr + 8 ≤ c.stop := by
    rw [← hpart, stop]
    exact Nat.add_le_add_left (Nat.le_mul_of_pos_right 8 hn) _
  have hadd : plus (part c n).addr 1 = (part c n).addr + 8 := Nat.mod_eq_of_lt (hpartaddr.trans_lt hcstop)
  rw [takeFrom, bind_ok (load_eq hctop), hcy]
  by_cases heq : c.size = n
  · have hwhole : (part c n).addr = c.addr := by rw [part, heq, Nat.sub_self]; rfl
    have hframe {a : Nat} (ha : a ≠ z.addr) :
        (s.put z.addr ⟨first y base, (s.hdr z.addr).size⟩).hdr a = s.hdr a := update_of_ne ha ..
    obtain ⟨free', hready⟩ := h.carved hring hn hc rfl rfl rfl
      (t := { s.put z.addr ⟨first y base, (s.hdr z.addr).size⟩ with freep := z.addr })
      (by
        rw [remainder, if_pos heq, List.nil_append, listed_append]
        refine ⟨hx.frame fun d hd => hframe (hxlt hd).1.ne, ?_, hy.frame fun d hd => hframe (hylt hd).1.ne'⟩
        rw [hz]
        exact update_self ..)
      (by
        rw [hwhole]
        exact (congrArg Header.size (hframe hzc.ne')).trans (hcy ▸ heq))
      fun b hb => congrArg Header.size (hframe (h.ne_addr hb (hring ▸ by simp)))
    refine ⟨_, free', ?_, ?_, hready⟩
    · rw [if_pos heq, bind_ok (setPtr_eq hztop), ← hadd, hwhole]
      rfl
    · rfl
  · obtain ⟨s₁, hs₁⟩ : ∃ s₁, s₁ = s.put c.addr ⟨first y base, c.size - n⟩ := ⟨_, rfl⟩
    have hcpart : c.addr < (part c n).addr := Nat.lt_add_of_pos_right (by omega)
    have htop : (part c n).addr + 8 ≤ s₁.top := by
      rw [hs₁]
      exact hpartaddr.trans (hcinside.stop_le.trans h.sz_le)
    have hframe {a : Nat} (hac : a ≠ c.addr) (hap : a ≠ (part c n).addr) :
        (s₁.put (part c n).addr ⟨(s₁.hdr (part c n).addr).ptr, n⟩).hdr a = s.hdr a := by
      rw [hs₁]
      exact (update_of_ne hap ..).trans (update_of_ne hac ..)
    obtain ⟨free', hready⟩ := h.carved hring hn hc (by rw [hs₁]; rfl) (by rw [hs₁]; rfl) rfl
      (t := { s₁.put (part c n).addr ⟨(s₁.hdr (part c n).addr).ptr, n⟩ with freep := z.addr })
      (by
        rw [remainder, if_neg heq, listed_append]
        refine ⟨hx.frame fun d hd => hframe (hxlt hd).2.ne ((hxlt hd).2.trans hcpart).ne,
          (hframe hzc.ne (hzc.trans hcpart).ne).trans hz, ?_,
          hy.frame fun d hd => hframe (by have := (hylt hd).2; omega) (by have := (hylt hd).2; omega)⟩
        rw [hs₁]
        exact (update_of_ne hcpart.ne ..).trans (update_self ..))
      (by simp [Heap.put])
      fun b hb => congrArg Header.size (hframe (h.ne_addr hb (hring ▸ by simp)) fun hbp =>
        h.live_free b hb c (mem_free_of_post hring List.mem_cons_self) b.addr (h.live_inside b hb).has
          ⟨by omega, by omega⟩)
    refine ⟨_, free', ?_, ?_, hready⟩
    · have hplus : plus c.addr (c.size - n) = (part c n).addr :=
        Nat.mod_eq_of_lt (show (part c n).addr < 2 ^ 32 by omega)
      rw [if_neg heq, bind_ok (setSize_eq hctop), hcy, ← hs₁]
      simp only [hplus]
      rw [bind_ok (setSize_eq htop), hadd]
      rfl
    · rw [hs₁]
      rfl

theorem found (h : Ready base start s free live) (hn : 0 < n) (hz : z ∈ ring base free) (hc : c ∈ ring base free)
    (hptr : (s.hdr z.addr).ptr = c.addr) (hsize : n ≤ c.size) :
    ∃ x d y, ring base free = x ++ z :: d :: y ∧ n ≤ d.size ∧ c.addr = d.addr := by
  have hne : (s.hdr z.addr).ptr ≠ base := by
    rw [hptr]
    obtain rfl | hc := List.mem_cons.1 hc
    · exact absurd hsize (Nat.not_le.2 hn)
    · have := h.base_lt
      have := (h.free_inside c hc).start_le
      omega
  obtain ⟨x, d, y, hring, hd⟩ := h.listed.adjacent hz hne
  have hcd : c.addr = d.addr := hptr.symm.trans hd
  have hdsize : d.size = c.size := by
    rw [← h.listed.size hc, hcd, h.listed.size (hring ▸ by simp)]
  exact ⟨x, d, y, hring, hdsize ▸ hsize, hcd⟩

def refill (avail : Bool) (n fuel : Nat) : M Nat := do
  let p ← morecore avail n
  if p = 0 then return 0 else mallocLoop avail n fuel p (← load p).ptr

theorem walk (avail : Bool) (h : Ready base start s free live) (hn : 0 < n) (hq : q ∈ ring base free) (hfreep : q.addr = s.freep)
    (hz : z ∈ ring base free) (hlisted : Listed s.hdr (z :: m) q.addr)
    (hm : ∀ u ∈ m, u ∈ ring base free ∧ u.addr ≠ q.addr) (hfuel : m.length < fuel) :
    (∃ x w d y, ring base free = x ++ w :: d :: y ∧ n ≤ d.size ∧
      mallocLoop avail n fuel z.addr (first m q.addr) s = takeFrom n w.addr d.addr s) ∨
    (∀ u ∈ m ++ [q], u.size < n) ∧
      mallocLoop avail n fuel z.addr (first m q.addr) s = refill avail n (fuel - m.length - 1) s := by
  induction m generalizing z fuel with
  | nil =>
    obtain _ | fuel := fuel
    · omega
    rw [first_nil, mallocLoop, bind_ok (load_eq (h.mapped hq).2.1), h.listed.size hq]
    by_cases hsize : n ≤ q.size
    · obtain ⟨x, d, y, hring, hd, haddr⟩ := h.found hn hz hq (by rw [hlisted.1]; rfl) hsize
      exact .inl ⟨x, z, d, y, hring, hd, by rw [if_pos hsize, haddr]⟩
    · rw [if_neg hsize, bind_ok get_eq, if_pos hfreep]
      exact .inr ⟨by simpa using hsize, rfl⟩
  | cons u m ih =>
    obtain _ | fuel := fuel
    · omega
    obtain ⟨⟨hu, huq⟩, hm⟩ := List.forall_mem_cons.1 hm
    rw [first_cons, mallocLoop, bind_ok (load_eq (h.mapped hu).2.1), h.listed.size hu]
    by_cases hsize : n ≤ u.size
    · obtain ⟨x, d, y, hring, hd, haddr⟩ := h.found hn hz hu (by rw [hlisted.1]; rfl) hsize
      exact .inl ⟨x, z, d, y, hring, hd, by rw [if_pos hsize, haddr]⟩
    · have hnext : (s.hdr u.addr).ptr = first m q.addr := by rw [hlisted.2.1]
      rw [if_neg hsize, bind_ok get_eq, if_neg (hfreep ▸ huq), bind_ok (load_eq (h.mapped hu).2.1), hnext]
      obtain hfound | ⟨hsmall, hrefill⟩ := ih hu hlisted.2 hm (Nat.lt_of_succ_lt_succ hfuel)
      · exact .inl hfound
      · refine .inr ⟨List.forall_mem_cons.2 ⟨Nat.not_le.1 hsize, hsmall⟩, ?_⟩
        rw [hrefill, List.length_cons, Nat.add_sub_add_right]

theorem search (avail : Bool) (fuel : Nat) (h : Ready base start s free live) (hn : 0 < n) (hfuel : (ring base free).length ≤ fuel) :
    (∃ x w d y, ring base free = x ++ w :: d :: y ∧ n ≤ d.size ∧
      mallocLoop avail n fuel s.freep (s.hdr s.freep).ptr s = takeFrom n w.addr d.addr s) ∨
    (∀ u ∈ ring base free, u.size < n) ∧
      mallocLoop avail n fuel s.freep (s.hdr s.freep).ptr s = refill avail n (fuel - (ring base free).length) s := by
  obtain ⟨q, hq, hfreep⟩ := h.roving
  obtain ⟨m, hm, hperm⟩ := h.listed.rotate rfl hq
  have hlen := hperm.length_eq
  rw [List.length_cons] at hlen
  have hnodup := (hperm.map addr).nodup_iff.2 h.addr_nodup
  have hmem (u : Block) (hu : u ∈ m) : u ∈ ring base free ∧ u.addr ≠ q.addr :=
    ⟨hperm.mem_iff.1 (List.mem_cons_of_mem _ hu),
      fun heq => (List.nodup_cons.1 hnodup).1 (heq ▸ List.mem_map_of_mem hu)⟩
  have hfuel : m.length < fuel := by omega
  have hptr : (s.hdr s.freep).ptr = first m q.addr := by rw [← hfreep, hm.1]
  rw [hptr, ← hfreep, ← hlen]
  obtain hfound | ⟨hsmall, hrefill⟩ := h.walk avail hn hq hfreep hq hm hmem hfuel
  · exact .inl hfound
  · refine .inr ⟨fun u hu => hsmall u ?_, ?_⟩
    · have := hperm.mem_iff.2 hu
      grind
    · rw [hrefill, Nat.sub_sub]

end Ready

section Sbrk

variable (avail : Bool)

theorem allocuvm_cases (oldsz newsz : Nat) (h : oldsz ≤ newsz) :
    allocuvm avail oldsz newsz = 0 ∨ newsz < 2 ^ 31 ∧ allocuvm avail oldsz newsz = newsz := by
  rw [allocuvm]
  split
  case isTrue => exact .inl rfl
  case isFalse hlt =>
    rw [if_neg (Nat.not_lt.2 h)]
    split
    · exact .inl rfl
    · exact .inr ⟨Nat.not_le.1 hlt, rfl⟩

theorem growproc_pos (hn : 0 < n.toInt) : growproc avail n s =
    if allocuvm avail s.sz ((s.sz + n.toNat) % 2 ^ 32) = 0 then .ok (false, s)
    else .ok (true, { s with
      sz := allocuvm avail s.sz ((s.sz + n.toNat) % 2 ^ 32)
      top := max s.top (pgroundup (allocuvm avail s.sz ((s.sz + n.toNat) % 2 ^ 32))) }) := by
  rw [growproc, bind_ok get_eq]
  simp only [if_pos (show n.toInt > 0 from hn)]
  split <;> rfl

theorem sbrk_eq (hsz : s.sz < 2 ^ 31) (hpos : 0 < nu) (hnu : nu * 8 < 2 ^ 31) :
    sbrk avail (.ofNat 32 (nu * 8)) s = .ok (none, s) ∨ s.sz + nu * 8 < 2 ^ 31 ∧ ∃ top, s.sz + nu * 8 ≤ top ∧
      sbrk avail (.ofNat 32 (nu * 8)) s = .ok (some s.sz, { s with sz := s.sz + nu * 8, top := top }) := by
  have hnat : (BitVec.ofNat 32 (nu * 8)).toNat = nu * 8 := by
    rw [BitVec.toNat_ofNat]
    omega
  have hint : (BitVec.ofNat 32 (nu * 8)).toInt = (nu * 8 : Nat) := by
    rw [BitVec.toInt_eq_toNat_of_lt (by omega), hnat]
  have hgrow := growproc_pos avail (s := s) (n := .ofNat 32 (nu * 8)) (by omega)
  rw [hnat, Nat.mod_eq_of_lt (by omega)] at hgrow
  rw [sbrk, bind_ok get_eq]
  obtain hfail | ⟨hlt, hok⟩ := allocuvm_cases avail s.sz (s.sz + nu * 8) (Nat.le_add_right ..)
  · rw [if_pos hfail] at hgrow
    rw [bind_ok hgrow]
    exact .inl rfl
  · rw [hok, if_neg (by omega)] at hgrow
    rw [bind_ok hgrow]
    refine .inr ⟨hlt, _, le_max_of_le_right ?_, rfl⟩
    rw [pgroundup]
    omega

end Sbrk

namespace Ready

variable {base start n : Nat} {s : Heap} {free live : List Block}

theorem grown (h : Ready base start s free live) (hn : 0 < n) (hlt : s.sz + n * 8 < 2 ^ 31)
    (htop : s.sz + n * 8 ≤ top) : Ready base start
      (({ s with sz := s.sz + n * 8, top := top } : Heap).put s.sz ⟨(s.hdr s.sz).ptr, n⟩) free (⟨s.sz, n⟩ :: live) := by
  have hsz : s.sz ≤ s.sz + n * 8 := Nat.le_add_right ..
  have hinside {b : Block} (hb : b.Inside start s.sz) : b.Inside start (s.sz + n * 8) :=
    ⟨hb.pos, hb.start_le, hb.stop_le.trans hsz⟩
  have hapart {b : Block} (hb : b.Inside start s.sz) : (Block.mk s.sz n).Apart b := fun i hi hbi =>
    absurd (hbi.2.trans_le (hb.stop_le.trans hi.1)) (lt_irrefl i)
  have hframe {a : Nat} (ha : a < s.sz) (e : Header) : update s.hdr s.sz e a = s.hdr a := update_of_ne ha.ne ..
  have haddr {b : Block} (hb : b.Inside start s.sz) : b.addr < s.sz := hb.addr_lt.trans_le hb.stop_le
  have hbase : base < s.sz := by
    have := h.base_lt
    have := h.start_le
    omega
  refine ⟨⟨h.base_pos, h.base_lt, h.start_le.trans hsz, hlt, htop⟩,
    h.listed.frame (List.forall_mem_cons.2 ⟨hframe hbase _, fun b hb => hframe (haddr (h.free_inside b hb)) _⟩),
    h.below, h.roving, fun b hb => hinside (h.free_inside b hb),
    List.forall_mem_cons.2 ⟨⟨hn, h.start_le, ?_⟩, fun b hb => hinside (h.live_inside b hb)⟩,
    List.forall_mem_cons.2 ⟨by simp [Heap.put], fun b hb => ?_⟩,
    List.forall_mem_cons.2 ⟨fun b hb => hapart (h.free_inside b hb), h.live_free⟩,
    List.pairwise_cons.2 ⟨fun b hb => hapart (h.live_inside b hb), h.live_apart⟩⟩
  · exact (by omega : s.sz + 8 * n ≤ s.sz + n * 8)
  · exact (congrArg Header.size (hframe (haddr (h.live_inside b hb)) _)).trans (h.live_size b hb)

theorem more (avail : Bool) (h : Ready base start s free live) (hn : n < 2 ^ 28) : morecore avail n s = .ok (0, s) ∨
    ∃ t free', morecore avail n s = .ok (t.freep, t) ∧ Ready base start t free' live ∧ ∃ c ∈ free', n ≤ c.size := by
  obtain ⟨nu, hnu⟩ : ∃ nu, nu = if n < 4096 then 4096 else n := ⟨_, rfl⟩
  have hpos : n ≤ nu ∧ 0 < nu ∧ nu * 8 < 2 ^ 31 := by
    split at hnu <;> omega
  rw [morecore, ← hnu]
  obtain hfail | ⟨hlt, top, htop, hok⟩ := sbrk_eq avail h.sz_lt hpos.2.1 hpos.2.2
  · rw [bind_ok hfail]
    exact .inl rfl
  · have hready : Ready base start _ free ([] ++ ⟨s.sz, nu⟩ :: live) := h.grown hpos.2.1 hlt htop
    obtain ⟨t, free', hfree, -, hready', c, hc, hsize⟩ := hready.freed
    have hplus : plus s.sz 1 = s.sz + 8 := Nat.mod_eq_of_lt (by omega)
    refine .inr ⟨t, free', ?_, hready', c, hc, hpos.1.trans hsize⟩
    have hset : s.sz + 8 ≤ top := by omega
    rw [bind_ok hok]
    simp only
    rw [bind_ok (setSize_eq hset), hplus, bind_ok hfree]
    rfl

theorem allocated (avail : Bool) (h : Ready base start s free live) (hn : 0 < n) (hlt : n < 2 ^ 28) :
    mallocLoop avail n turns s.freep (s.hdr s.freep).ptr s = .ok (0, s) ∨ ∃ b t free',
      mallocLoop avail n turns s.freep (s.hdr s.freep).ptr s = .ok (b.addr + 8, t) ∧ b.size = n ∧
        Ready base start t free' (b :: live) := by
  have hlen := h.length_lt
  obtain ⟨x, w, d, y, hring, hd, hloop⟩ | ⟨-, hloop⟩ := h.search avail turns hn (by rw [turns]; omega)
  · obtain ⟨t, free', htake, -, hready⟩ := h.taken hring hn hd
    exact .inr ⟨_, t, free', hloop.trans htake, rfl, hready⟩
  · rw [hloop, refill]
    obtain hfail | ⟨t, free', hmore, hready, c, hc, hsize⟩ := h.more avail hlt
    · rw [bind_ok hfail]
      exact .inl rfl
    · obtain ⟨q, hq, hfreep⟩ := hready.roving
      have hq := hready.mapped hq
      have hlen' := hready.length_lt
      have hbase := h.base_pos
      rw [hfreep] at hq
      rw [bind_ok hmore, if_neg (by omega), bind_ok (load_eq hq.2.1)]
      obtain ⟨x, w, d, y, hring, hd, hloop⟩ | ⟨hsmall, -⟩ := hready.search avail
        (turns - (Umalloc.ring base free).length) hn (by rw [turns]; omega)
      · obtain ⟨u, free'', htake, -, hready'⟩ := hready.taken hring hn hd
        exact .inr ⟨_, u, free'', hloop.trans htake, rfl, hready'⟩
      · exact absurd (hsmall c (List.mem_cons_of_mem _ hc)) (Nat.not_lt.2 hsize)

end Ready

def Valid (base start : Nat) (s : Heap) (live : List Block) : Prop :=
  s.freep = 0 ∧ live = [] ∧ Room base start s ∨ ∃ free, Ready base start s free live

section Malloc

theorem nunits_eq (h : nbytes ≤ 2 ^ 31 - 16) : 0 < nunits nbytes ∧ nunits nbytes < 2 ^ 28 ∧
    nbytes ≤ 8 * (nunits nbytes - 1) := by
  rw [nunits]
  omega

theorem Valid.init (h : Valid base start s live) : ∃ t free, initFree base s = .ok ((), t) ∧ t.sz = s.sz ∧
    t.top = s.top ∧ Ready base start t free live := by
  rw [initFree, bind_ok get_eq]
  obtain ⟨hfreep, rfl, hroom⟩ | ⟨free, hready⟩ := h
  · have htop : base + 8 ≤ s.top := hroom.base_lt.trans (hroom.start_le.trans hroom.sz_le)
    rw [if_pos hfreep, bind_ok (setPtr_eq htop), bind_ok setFreep_eq]
    have hhdr : Listed (update (update s.hdr base ⟨base, (s.hdr base).size⟩) base ⟨base, 0⟩) (ring base []) base :=
      ⟨update_self .., trivial⟩
    refine ⟨_, [], setSize_eq htop, rfl, rfl, ⟨hroom.base_pos, hroom.base_lt, hroom.start_le, hroom.sz_lt, hroom.sz_le⟩, ?_,
      List.pairwise_singleton .., ⟨⟨base, 0⟩, List.mem_singleton_self _, rfl⟩, ?_, ?_, ?_, ?_, .nil⟩
    · simpa [Heap.put] using hhdr
    all_goals simp
  · obtain ⟨q, hq, hfreep⟩ := hready.roving
    have := (hready.mapped hq).1
    have := hready.base_pos
    rw [if_neg (by omega)]
    exact ⟨s, free, rfl, rfl, rfl, hready⟩

theorem Valid.malloc (avail : Bool) (h : Valid base start s live) (hn : nbytes ≤ 2 ^ 31 - 16) :
    (∃ t free', Umalloc.malloc base avail nbytes s = .ok (0, t) ∧ t.sz = s.sz ∧ Ready base start t free' live) ∨
    ∃ b t free', Umalloc.malloc base avail nbytes s = .ok (b.addr + 8, t) ∧ b.size = nunits nbytes ∧
      Ready base start t free' (b :: live) := by
  obtain ⟨t, free, hinit, hsz, -, hready⟩ := h.init
  obtain ⟨hpos, hlt, -⟩ := nunits_eq hn
  obtain ⟨q, hq, hfreep⟩ := hready.roving
  have htop := (hready.mapped hq).2.1
  rw [hfreep] at htop
  rw [Umalloc.malloc, bind_ok hinit, bind_ok get_eq, bind_ok (load_eq htop)]
  obtain hfail | ⟨b, u, free', hok, hb, hready'⟩ := hready.allocated avail hpos hlt
  · exact .inl ⟨t, free, hfail, hsz, hready⟩
  · exact .inr ⟨b, u, free', hok, hb, hready'⟩

end Malloc

structure Live where
  block : Block
  bytes : Nat

structure World where
  heap : Heap
  live : List Live

/-- A call of `malloc`, which finds the memory that it asks `sbrk` for or not, and one of `free` on
a live pointer. -/
inductive Call
  | malloc (nbytes : Nat) (avail : Bool)
  | free (i : Nat)

def step (base : Nat) (w : World) : Call → Except Stop World
  | .malloc nbytes avail => do
    let (p, s) ← malloc base avail nbytes w.heap
    if p = 0 then return { w with heap := s }
    else return ⟨s, ⟨⟨p - 8, (s.hdr (p - 8)).size⟩, nbytes⟩ :: w.live⟩
  | .free i =>
    match w.live[i]? with
    | none => return w
    | some x => do
      let ((), s) ← free (x.block.addr + 8) w.heap
      return ⟨s, w.live.eraseIdx i⟩

def run (base : Nat) (cs : List Call) (w : World) : Except Stop World := cs.foldlM (step base) w

structure Sound (base start : Nat) (w : World) : Prop where
  heap : Valid base start w.heap (w.live.map Live.block)
  bytes : ∀ x ∈ w.live, x.bytes ≤ 8 * (x.block.size - 1)

theorem Sound.step (h : Sound base start w) (hc : ∀ n avail, c = Call.malloc n avail → n < 2 ^ 30) :
    ∃ w', Umalloc.step base w c = .ok w' ∧ Sound base start w' := by
  cases c with
  | malloc nbytes avail =>
    have hn : nbytes ≤ 2 ^ 31 - 16 := by
      have := hc nbytes avail rfl
      omega
    obtain ⟨t, free, hmalloc, -, hready⟩ | ⟨b, t, free, hmalloc, hb, hready⟩ := h.heap.malloc avail hn
    · refine ⟨⟨t, w.live⟩, ?_, .inr ⟨free, hready⟩, h.bytes⟩
      rw [Umalloc.step, hmalloc]
      rfl
    · have hsize : (t.hdr b.addr).size = b.size := hready.live_size b List.mem_cons_self
      refine ⟨⟨t, ⟨b, nbytes⟩ :: w.live⟩, ?_, .inr ⟨free, hready⟩, List.forall_mem_cons.2 ⟨?_, h.bytes⟩⟩
      · rw [Umalloc.step, hmalloc]
        change (if b.addr + 8 = 0 then pure ⟨t, w.live⟩ else pure
          ⟨t, ⟨⟨b.addr + 8 - 8, (t.hdr (b.addr + 8 - 8)).size⟩, nbytes⟩ :: w.live⟩ : Except Stop World) = _
        rw [if_neg (by omega), Nat.add_sub_cancel, hsize]
        rfl
      · rw [hb]
        exact (nunits_eq hn).2.2
  | free i =>
    rw [Umalloc.step]
    cases hx : w.live[i]? with
    | none => exact ⟨w, rfl, h⟩
    | some x =>
      obtain ⟨hi, rfl⟩ := List.getElem?_eq_some_iff.1 hx
      have hsplit : w.live = w.live.take i ++ w.live[i] :: w.live.drop (i + 1) := by
        rw [← List.drop_eq_getElem_cons hi, List.take_append_drop]
      have hmap := congrArg (List.map Live.block) hsplit
      rw [List.map_append, List.map_cons] at hmap
      obtain ⟨-, hnil, -⟩ | ⟨free, hready⟩ := h.heap
      · rw [hmap] at hnil
        simp at hnil
      · rw [hmap] at hready
        obtain ⟨t, free', hfree, -, hready', -⟩ := hready.freed
        refine ⟨⟨t, w.live.eraseIdx i⟩, ?_, .inr ⟨free', ?_⟩, fun x hx => h.bytes x (List.mem_of_mem_eraseIdx hx)⟩
        · simp only [hfree]
          rfl
        · simpa [List.eraseIdx_eq_take_drop_succ] using hready'

theorem Sound.run (h : Sound base start w) (hcs : ∀ n avail, Call.malloc n avail ∈ cs → n < 2 ^ 30) :
    ∃ w', Umalloc.run base cs w = .ok w' ∧ Sound base start w' := by
  induction cs generalizing w with
  | nil => exact ⟨w, rfl, h⟩
  | cons c cs ih =>
    obtain ⟨w', hstep, h'⟩ := h.step (c := c) fun n avail hc => hcs n avail (hc ▸ List.mem_cons_self)
    obtain ⟨w'', hrun, h''⟩ := ih h' fun n avail hc => hcs n avail (List.mem_cons_of_mem _ hc)
    refine ⟨w'', ?_, h''⟩
    rw [Umalloc.run, List.foldlM_cons, hstep]
    exact hrun

theorem malloc_free_integrity (base : Nat) (s : Heap) (hs : s.freep = 0) (hroom : Room base s.sz s)
    (cs : List Call) (hcs : ∀ n avail, Call.malloc n avail ∈ cs → n < 2 ^ 30) :
    ∃ w, run base cs ⟨s, []⟩ = .ok w ∧ Sound base s.sz w :=
  Sound.run ⟨.inl ⟨hs, rfl, hroom⟩, by simp⟩ hcs

def fresh (sz : Nat) : Heap := ⟨0, fun _ => ⟨0, 0⟩, sz, sz⟩

theorem fresh_room (hlo : 4096 ≤ sz) (hhi : sz ≤ 8192) : Room 256 sz (fresh sz) where
  base_pos := by decide
  base_lt := by omega
  start_le := le_rfl
  sz_lt := (by omega : sz < 2 ^ 31)
  sz_le := le_rfl

theorem malloc_free_integrity_reuse : ∃ w, run 256 [.malloc 10 true, .malloc 20 true, .free 1, .malloc 8 false]
    ⟨fresh 4096, []⟩ = .ok w ∧ Sound 256 4096 w :=
  malloc_free_integrity 256 (fresh 4096) rfl (fresh_room le_rfl (by decide)) _ (by grind)

def MallocSound (base : Nat) (avail : Bool) (nbytes : Nat) (s : Heap) : Prop :=
  ∃ p t, malloc base avail nbytes s = .ok (p, t) ∧ (p = 0 ∧ t.sz = s.sz ∨
    p ≠ 0 ∧ nbytes ≤ 8 * ((t.hdr (p - 8)).size - 1) ∧ (Block.mk (p - 8) (t.hdr (p - 8)).size).stop ≤ t.sz)

theorem Valid.mallocSound (avail : Bool) (h : Valid base start s live) (hn : nbytes ≤ 2 ^ 31 - 16) :
    MallocSound base avail nbytes s := by
  obtain ⟨t, free, hmalloc, hsz, -⟩ | ⟨b, t, free, hmalloc, hb, hready⟩ := h.malloc avail hn
  · exact ⟨0, t, hmalloc, .inl ⟨rfl, hsz⟩⟩
  · have hsize : (t.hdr b.addr).size = b.size := hready.live_size b List.mem_cons_self
    refine ⟨b.addr + 8, t, hmalloc, .inr ⟨by omega, ?_, ?_⟩⟩ <;> rw [Nat.add_sub_cancel, hsize]
    · rw [hb]
      exact (nunits_eq hn).2.2
    · exact (hready.live_inside b List.mem_cons_self).stop_le

theorem growproc_wrap (avail : Bool) (hlo : 2 ^ 28 ≤ n) (hhi : n ≤ 2 ^ 29) (htop : s.top = s.sz)
    (hpage : s.sz % 4096 = 0) (hpos : 0 < s.sz) (hsz : s.sz < 2 ^ 31) (hne : s.sz + n * 8 ≠ 2 ^ 32) :
    ∃ t, growproc avail (.ofNat 32 (n * 8)) s = .ok (true, t) ∧ t.top ≤ s.sz := by
  rw [growproc, bind_ok get_eq]
  by_cases hzero : n = 2 ^ 29
  · rw [hzero]
    exact ⟨s, rfl, htop.le⟩
  · have hnat : (BitVec.ofNat 32 (n * 8)).toNat = n * 8 := by
      rw [BitVec.toNat_ofNat]
      omega
    have hneg : (BitVec.ofNat 32 (n * 8)).toInt < 0 := by
      rw [BitVec.toInt_eq_toNat_cond, hnat]
      omega
    simp only [if_neg (show ¬ (BitVec.ofNat 32 (n * 8)).toInt > 0 by omega), if_pos hneg, hnat, deallocuvm]
    by_cases hshrink : (s.sz + n * 8) % 2 ^ 32 < s.sz
    · rw [if_pos hshrink, if_neg (Nat.not_le.2 hshrink), if_neg (by omega)]
      refine ⟨_, rfl, (?_ : pgroundup _ ≤ s.sz)⟩
      rw [pgroundup]
      omega
    · rw [if_neg hshrink, if_pos (Nat.not_lt.1 hshrink), if_neg hpos.ne']
      exact ⟨_, rfl, htop.le⟩

theorem morecore_fault (avail : Bool) (hlo : 2 ^ 28 ≤ n) (hhi : n ≤ 2 ^ 29) (htop : s.top = s.sz)
    (hpage : s.sz % 4096 = 0) (hpos : 0 < s.sz) (hsz : s.sz < 2 ^ 31) (hne : s.sz + n * 8 ≠ 2 ^ 32) :
    morecore avail n s = .error .fault := by
  obtain ⟨t, hgrow, ht⟩ := growproc_wrap avail hlo hhi htop hpage hpos hsz hne
  have hsbrk : sbrk avail (.ofNat 32 (n * 8)) s = .ok (some s.sz, t) := by
    rw [sbrk, bind_ok get_eq, bind_ok hgrow]
    rfl
  rw [morecore, if_neg (by omega), bind_ok hsbrk]
  exact bind_error (bind_error (load_fault (by omega)))

theorem malloc_fault (avail : Bool) (hlo : 2 ^ 28 ≤ nunits nbytes) (hhi : nunits nbytes ≤ 2 ^ 29)
    (hsz : 4096 ≤ sz) (hsz' : sz ≤ 8192) (hpage : sz % 4096 = 0) (hne : sz + nunits nbytes * 8 ≠ 2 ^ 32) :
    malloc 256 avail nbytes (fresh sz) = .error .fault := by
  obtain ⟨t, free, hinit, htsz, httop, h⟩ := Valid.init (.inl ⟨rfl, rfl, fresh_room hsz hsz'⟩)
  have htsz : t.sz = sz := htsz
  have httop : t.top = sz := httop
  obtain ⟨q, hq, hfreep⟩ := h.roving
  have htop := (h.mapped hq).2.1
  rw [hfreep] at htop
  rw [malloc, bind_ok hinit, bind_ok get_eq, bind_ok (load_eq htop)]
  have hlen := h.length_lt
  obtain ⟨x, w, d, y, hring, hd, -⟩ | ⟨-, hloop⟩ := h.search avail turns (show 0 < nunits nbytes by omega)
    (by rw [turns]; omega)
  · have := (h.free_inside d (Ready.mem_free_of_post hring List.mem_cons_self)).stop_le
    rw [stop] at this
    omega
  · rw [hloop, Ready.refill]
    exact bind_error (morecore_fault avail hlo hhi (by omega) (by omega) (by omega) (by omega) (by omega))

theorem malloc_small : ∃ p t, malloc 256 true 0 (fresh 4096) = .ok (p, t) ∧ p ≠ 0 ∧ (t.hdr (p - 8)).size = 1 := by
  have h : (malloc 256 true 0 (fresh 4096)).toOption.any fun r => r.1 ≠ 0 ∧ (r.2.hdr (r.1 - 8)).size = 1 := by
    decide +kernel
  obtain ⟨p, t, hmalloc, hp⟩ := exists_of_ok_any h
  exact ⟨p, t, hmalloc, of_decide_eq_true hp⟩

theorem malloc_sound_iff (nbytes : Nat) (hn : nbytes < 2 ^ 32) :
    (∀ base start s live avail, Valid base start s live → MallocSound base avail nbytes s) ↔
      nbytes ≤ 2 ^ 31 - 16 := by
  constructor
  · intro h
    by_contra hlt
    have hfresh (sz : Nat) (hlo : 4096 ≤ sz) (hhi : sz ≤ 8192) : MallocSound 256 true nbytes (fresh sz) :=
      h 256 sz (fresh sz) [] true (.inl ⟨rfl, rfl, fresh_room hlo hhi⟩)
    by_cases hwrap : 2 ^ 32 - 7 ≤ nbytes
    · have hunits : nunits nbytes = nunits 0 := by
        simp only [nunits]
        omega
      obtain ⟨p, t, hmalloc, hp⟩ := malloc_small
      obtain ⟨p', t', hmalloc', hp'⟩ := hfresh 4096 le_rfl (by decide)
      rw [malloc, hunits, ← malloc, hmalloc] at hmalloc'
      cases hmalloc'
      rw [hp.2] at hp'
      omega
    · have hunits : 2 ^ 28 ≤ nunits nbytes ∧ nunits nbytes ≤ 2 ^ 29 := by
        rw [nunits]
        omega
      obtain ⟨sz, hlo, hhi, hpage, hne⟩ : ∃ sz, 4096 ≤ sz ∧ sz ≤ 8192 ∧ sz % 4096 = 0 ∧
          sz + nunits nbytes * 8 ≠ 2 ^ 32 := by
        by_cases h8192 : 8192 + nunits nbytes * 8 = 2 ^ 32
        · exact ⟨4096, by omega⟩
        · exact ⟨8192, by omega⟩
      obtain ⟨p, t, hmalloc, -⟩ := hfresh sz hlo hhi
      cases (malloc_fault true hunits.1 hunits.2 hlo hhi hpage hne).symm.trans hmalloc
  · exact fun hn base start s live avail h => h.mallocSound avail hn

theorem malloc_sound_iff_hundred : MallocSound 256 true 100 (fresh 4096) :=
  (malloc_sound_iff 100 (by decide)).2 (by decide) 256 4096 (fresh 4096) [] true
    (.inl ⟨rfl, rfl, fresh_room le_rfl (by decide)⟩)

theorem malloc_unsound : (∃ p t, malloc 256 true 4294967295 (fresh 4096) = .ok (p, t) ∧ p ≠ 0 ∧
      (t.hdr (p - 8)).size = 1) ∧
    malloc 256 true 2147483648 (fresh 8192) = .error .fault :=
  ⟨malloc_small, malloc_fault true (by decide) (by decide) (by decide) (by decide) (by decide) (by decide)⟩

end Xv6.Umalloc
