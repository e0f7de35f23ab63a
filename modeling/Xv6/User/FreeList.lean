import Xv6.User.Blocks
import Xv6.User.Heap

namespace Xv6.Umalloc

open Function Lib Prog Block

def first (l : List Block) (e : Nat) : Nat :=
  match l with
  | [] => e
  | c :: _ => c.addr

@[simp] theorem first_nil (e : Nat) : first [] e = e := rfl

@[simp] theorem first_cons (c : Block) (l : List Block) (e : Nat) : first (c :: l) e = c.addr := rfl

def Listed (hdr : Nat → Header) : List Block → Nat → Prop
  | [], _ => True
  | b :: l, e => hdr b.addr = ⟨first l e, b.size⟩ ∧ Listed hdr l e

section Listed

theorem first_append (l m : List Block) (e : Nat) : first (l ++ m) e = first l (first m e) := by
  cases l <;> rfl

theorem first_join (b : Block) (l : List Block) (e : Nat) : first (join b l) e = b.addr := by
  cases l with
  | nil => rfl
  | cons c l =>
    rw [join]
    split <;> rfl

theorem join_of_first_ne (h : b.stop ≠ first l e) : join b l = b :: l := by
  cases l with
  | nil => rfl
  | cons c l => exact if_neg h

theorem listed_append : Listed hdr (l ++ m) e ↔ Listed hdr l (first m e) ∧ Listed hdr m e := by
  induction l with
  | nil => simp [Listed]
  | cons b l ih => rw [List.cons_append, Listed, Listed, ih, first_append, and_assoc]

theorem Listed.frame (h : Listed hdr l e) (hsame : ∀ b ∈ l, hdr' b.addr = hdr b.addr) : Listed hdr' l e := by
  induction l with
  | nil => trivial
  | cons b l ih =>
    rw [List.forall_mem_cons] at hsame
    exact ⟨hsame.1.trans h.1, ih h.2 hsame.2⟩

theorem Listed.size (h : Listed hdr l e) (hb : b ∈ l) : (hdr b.addr).size = b.size := by
  obtain ⟨x, y, rfl⟩ := List.append_of_mem hb
  rw [(listed_append.1 h).2.1]

theorem Listed.rotate (h : Listed hdr l e) (hfirst : first l e = e) (hq : q ∈ l) :
    ∃ m, Listed hdr (q :: m) q.addr ∧ (q :: m).Perm l := by
  obtain ⟨x, y, rfl⟩ := List.append_of_mem hq
  obtain ⟨hx, hy⟩ := listed_append.1 h
  have hend : first x q.addr = e := (first_append ..).symm.trans hfirst
  have hperm : (q :: y ++ x).Perm (x ++ q :: y) := List.perm_append_comm
  refine ⟨y ++ x, ?_, hperm⟩
  rw [← List.cons_append, listed_append, hend]
  exact ⟨hy, hx⟩

theorem Listed.adjacent (h : Listed hdr l e) (hz : z ∈ l) (hne : (hdr z.addr).ptr ≠ e) :
    ∃ x c y, l = x ++ z :: c :: y ∧ (hdr z.addr).ptr = c.addr := by
  obtain ⟨x, y, rfl⟩ := List.append_of_mem hz
  have hptr : (hdr z.addr).ptr = first y e := by rw [(listed_append.1 h).2.1]
  cases y with
  | nil => exact absurd hptr hne
  | cons c y => exact ⟨x, c, y, rfl, hptr⟩

end Listed

section Steps

variable {s : Heap} {x : Block} {l : List Block} {e : Nat}

theorem get_eq : (get : M Heap) s = .ok (s, s) := rfl

theorem load_eq (h : a + 8 ≤ s.top) : load a s = .ok (s.hdr a, s) := by
  change (if a + 8 ≤ s.top then _ else _ : M Header) s = _
  rw [if_pos h]
  rfl

theorem load_fault (h : s.top < a + 8) : load a s = .error .fault := by
  change (if a + 8 ≤ s.top then _ else _ : M Header) s = _
  rw [if_neg (Nat.not_le.2 h)]
  rfl

def Heap.put (a : Nat) (h : Header) (s : Heap) : Heap := { s with hdr := update s.hdr a h }

theorem setPtr_eq (h : a + 8 ≤ s.top) : setPtr a v s = .ok ((), s.put a ⟨v, (s.hdr a).size⟩) := by
  rw [setPtr, bind_ok (load_eq h)]
  rfl

theorem setSize_eq (h : a + 8 ≤ s.top) : setSize a v s = .ok ((), s.put a ⟨(s.hdr a).ptr, v⟩) := by
  rw [setSize, bind_ok (load_eq h)]
  rfl

theorem setFreep_eq : setFreep a s = .ok ((), { s with freep := a }) := rfl

theorem plus_eq (h : x.stop < 2 ^ 32) : plus x.addr x.size = x.stop := Nat.mod_eq_of_lt h

theorem linkTo_eq (hx : x.addr + 8 ≤ s.top) (hstop : x.stop < 2 ^ 32) (hsize : (s.hdr x.addr).size = x.size)
    (hl : Listed s.hdr l e) (hne : l = [] → x.stop ≠ e)
    (hmem : ∀ c ∈ l, c.addr ≠ x.addr ∧ c.addr + 8 ≤ s.top ∧ c.stop < 2 ^ 32) :
    ∃ h, linkTo x.addr (first l e) s = .ok ((), s.put x.addr h) ∧
      Listed (update s.hdr x.addr h) (join x l) e := by
  have hframe (h : Header) (l : List Block) (hl : Listed s.hdr l e) (hmem : ∀ c ∈ l, c.addr ≠ x.addr) :
      Listed (update s.hdr x.addr h) l e :=
    hl.frame fun c hc => update_of_ne (hmem c hc) ..
  rw [linkTo, bind_ok (load_eq hx), hsize, plus_eq hstop]
  cases l with
  | nil =>
    rw [first_nil, if_neg (hne rfl), setPtr_eq hx, hsize]
    exact ⟨_, rfl, update_self .., trivial⟩
  | cons c l =>
    obtain ⟨⟨hcx, hc, hcstop⟩, hmem⟩ := List.forall_mem_cons.1 hmem
    have hrest := fun c hc => (hmem c hc).1
    rw [first_cons, join]
    by_cases heq : x.stop = c.addr
    · have hsum : (x.size + c.size) % 2 ^ 32 = x.size + c.size := by
        rw [Block.stop] at hcstop heq
        exact Nat.mod_eq_of_lt (by omega)
      obtain ⟨t, ht⟩ : ∃ t, t = s.put x.addr ⟨(s.hdr x.addr).ptr, x.size + c.size⟩ := ⟨_, rfl⟩
      have htop : t.top = s.top := by rw [ht]; rfl
      have hload : t.hdr c.addr = s.hdr c.addr := by rw [ht]; exact update_of_ne hcx ..
      refine ⟨⟨first l e, x.size + c.size⟩, ?_, ?_⟩
      · rw [if_pos heq, bind_ok (load_eq hx), bind_ok (load_eq hc), hsize, hl.1, hsum, bind_ok (setSize_eq hx),
          ← ht, bind_ok (load_eq (htop ▸ hc)), hload, hl.1, setPtr_eq (htop ▸ hx), ht]
        simp [Heap.put]
      · rw [if_pos heq]
        exact ⟨update_self .., hframe _ _ hl.2 hrest⟩
    · rw [if_neg heq, if_neg heq, setPtr_eq hx, hsize]
      exact ⟨_, rfl, update_self .., hframe _ _ hl (List.forall_mem_cons.2 ⟨hcx, hrest⟩)⟩

def Stops (bp p ptr : Nat) : Prop := bp > p ∧ bp < ptr ∨ p ≥ ptr ∧ (bp > p ∨ bp < ptr)

theorem findPrev_eq (h : Listed s.hdr (l ++ x :: m) e) (hmem : ∀ c ∈ l ++ [x], c.addr + 8 ≤ s.top)
    (hl : ∀ c ∈ l, ¬ Stops bp c.addr (s.hdr c.addr).ptr) (hx : Stops bp x.addr (s.hdr x.addr).ptr)
    (hfuel : l.length < fuel) : findPrev bp fuel (first (l ++ x :: m) e) s = .ok (x.addr, s) := by
  induction l generalizing fuel with
  | nil =>
    obtain _ | fuel := fuel
    · omega
    rw [List.nil_append, first_cons, findPrev, bind_ok (load_eq (hmem x (by simp)))]
    by_cases hbetween : bp > x.addr ∧ bp < (s.hdr x.addr).ptr
    · rw [if_pos hbetween]
      rfl
    · rw [if_neg hbetween, if_pos (hx.resolve_left hbetween)]
      rfl
  | cons c l ih =>
    obtain _ | fuel := fuel
    · omega
    rw [List.cons_append, List.forall_mem_cons] at hmem
    rw [List.forall_mem_cons, Stops, not_or] at hl
    rw [List.cons_append, first_cons, findPrev, bind_ok (load_eq hmem.1), if_neg hl.1.1, if_neg hl.1.2, h.1]
    exact ih h.2 hmem.2 hl.2 (Nat.lt_of_succ_lt_succ hfuel)

end Steps

structure Room (base start : Nat) (s : Heap) : Prop where
  base_pos : 0 < base
  base_lt : base + 8 ≤ start
  start_le : start ≤ s.sz
  sz_lt : s.sz < 2 ^ 31
  sz_le : s.sz ≤ s.top

def ring (base : Nat) (free : List Block) : List Block := ⟨base, 0⟩ :: free

/-- The free blocks form one ring in the order of their addresses, with something between any two,
and no two blocks share a byte. -/
structure Ready (base start : Nat) (s : Heap) (free live : List Block) : Prop extends Room base start s where
  listed : Listed s.hdr (ring base free) base
  below : (ring base free).Pairwise Below
  roving : ∃ q ∈ ring base free, q.addr = s.freep
  free_inside : ∀ b ∈ free, b.Inside start s.sz
  live_inside : ∀ b ∈ live, b.Inside start s.sz
  live_size : ∀ b ∈ live, (s.hdr b.addr).size = b.size
  live_free : ∀ b ∈ live, ∀ c ∈ free, b.Apart c
  live_apart : live.Pairwise Apart

namespace Ready

variable {base start : Nat} {s : Heap} {free live : List Block} {b c p : Block}

theorem not_covers (h : Ready base start s free live) (hb : b ∈ live) : ∀ i, b.Has i → ¬ Covers free i :=
  fun i hi ⟨c, hc, hci⟩ => h.live_free b hb c hc i hi hci

theorem mapped (h : Ready base start s free live) (hc : c ∈ ring base free) :
    base ≤ c.addr ∧ c.addr + 8 ≤ s.top ∧ c.stop < 2 ^ 32 := by
  have := h.base_lt
  have := h.start_le
  have := h.sz_lt
  have := h.sz_le
  obtain rfl | hc := List.mem_cons.1 hc
  · simp only [stop]
    omega
  · obtain ⟨hpos, hstart, hstop⟩ := h.free_inside c hc
    rw [stop] at *
    omega

theorem ne_addr (h : Ready base start s free live) (hb : b ∈ live) (hc : c ∈ ring base free) : b.addr ≠ c.addr := by
  have hinside := h.live_inside b hb
  obtain rfl | hc := List.mem_cons.1 hc
  · have := h.base_lt
    have := hinside.start_le
    exact (by omega : b.addr ≠ base)
  · intro heq
    have hbc := h.live_free b hb c hc b.addr hinside.has
    rw [heq] at hbc
    exact hbc (h.free_inside c hc).has

theorem addr_nodup (h : Ready base start s free live) : ((ring base free).map addr).Nodup :=
  List.pairwise_map.2 (h.below.imp fun hab => hab.lt.ne)

theorem mem_free_of_post (hring : ring base free = pre ++ p :: post) (hc : c ∈ post) :
    c ∈ free := by
  cases pre with
  | nil =>
    cases hring
    exact hc
  | cons d pre =>
    cases hring
    simp [hc]

theorem stops (h : Ready base start s free live) (hb : b.Inside start s.sz)
    (hring : ring base free = pre ++ p :: post) (hpb : p.addr < b.addr) (hpost : ∀ c ∈ post, b.stop ≤ c.addr) :
    Stops b.addr p.addr (s.hdr p.addr).ptr ∧
      ∀ c ∈ pre ++ post, ¬ Stops b.addr c.addr (s.hdr c.addr).ptr := by
  have hlisted := h.listed
  have hbelow := h.below
  have hbase : ∀ c ∈ pre ++ p :: post, base ≤ c.addr := fun c hc => (h.mapped (hring ▸ hc)).1
  rw [hring] at hlisted hbelow
  have hlt := hb.addr_lt
  have hafter (x : List Block) (c : Block) (y : List Block) (heq : pre ++ p :: post = x ++ c :: y) :
      ∀ d ∈ y, c.Below d := by
    rw [heq] at hbelow
    exact (List.pairwise_cons.1 (List.pairwise_append.1 hbelow).2.1).1
  have hptr (x : List Block) (c : Block) (y : List Block) (heq : pre ++ p :: post = x ++ c :: y) :
      (s.hdr c.addr).ptr = first y base := by
    rw [heq, listed_append] at hlisted
    rw [hlisted.2.1]
  constructor
  · rw [hptr pre p post rfl]
    cases post with
    | nil => exact .inr ⟨hbase p (by simp), .inl hpb⟩
    | cons d post => exact .inl ⟨hpb, hlt.trans_le (hpost d List.mem_cons_self)⟩
  · intro c hc
    obtain hc | hc := List.mem_append.1 hc
    · obtain ⟨x, y, rfl⟩ := List.append_of_mem hc
      have hsplit : x ++ c :: y ++ p :: post = x ++ c :: (y ++ p :: post) := by simp
      have hcy := hafter x c _ hsplit
      have := c.addr_le_stop
      rw [hptr x c _ hsplit, Stops]
      cases y with
      | nil =>
        have hcp : c.Below p := hcy p (by simp)
        rw [Below] at hcp
        rw [List.nil_append, first_cons]
        omega
      | cons d y =>
        have hcd : c.Below d := hcy d (by simp)
        have hdp : d.Below p := hafter (x ++ [c]) d (y ++ p :: post) (by simp) p (by simp)
        have := d.addr_le_stop
        rw [Below] at hcd hdp
        rw [List.cons_append, first_cons]
        omega
    · obtain ⟨x, y, rfl⟩ := List.append_of_mem hc
      have hbc := hpost c (by simp)
      rw [hptr (pre ++ p :: x) c y (by simp)]
      cases y with
      | nil =>
        have := hbase c (by simp)
        have := hbase p (by simp)
        rw [Stops, first_nil]
        omega
      | cons d y =>
        have hcd : c.Below d := hafter (pre ++ p :: x) c (d :: y) (by simp) d (by simp)
        have := c.addr_le_stop
        rw [Below] at hcd
        rw [Stops, first_cons]
        omega

theorem place (h : Ready base start s free live) (hb : b ∈ live) : ∃ pre p post,
    ring base free = pre ++ p :: post ∧ p.stop ≤ b.addr ∧ p.addr < b.addr ∧ ∀ c ∈ post, b.stop ≤ c.addr := by
  have hinside := h.live_inside b hb
  have hbase : base < b.addr := by
    have := h.base_lt
    have := hinside.start_le
    omega
  obtain ⟨pre, p, post, hring, hp, hpost⟩ := exists_place h.below hbase.le hinside.pos
    (fun c hc => (h.free_inside c hc).pos) (h.not_covers hb)
  refine ⟨pre, p, post, hring, hp, ?_, hpost⟩
  have hmem : p ∈ ring base free := by
    rw [ring, hring]
    simp
  obtain rfl | hmem := List.mem_cons.1 hmem
  · exact hbase
  · exact (h.free_inside p hmem).addr_lt.trans_le hp

theorem length_lt (h : Ready base start s free live) : (ring base free).length < 2 ^ 31 := by
  have hsub : (ring base free).map addr ⊆ List.range s.sz := by
    intro a ha
    obtain ⟨c, hc, rfl⟩ := List.mem_map.1 ha
    have := h.base_lt
    have := h.start_le
    rw [List.mem_range]
    obtain rfl | hc := List.mem_cons.1 hc
    · exact (by omega : base < s.sz)
    · exact (h.free_inside c hc).addr_lt.trans_le (h.free_inside c hc).stop_le
  have hle := (h.addr_nodup.subperm hsub).length_le
  rw [List.length_map, List.length_range] at hle
  exact hle.trans_lt h.sz_lt

theorem findPrev_place (h : Ready base start s free live) (hb : b.Inside start s.sz)
    (hring : ring base free = pre ++ p :: post) (hpb : p.addr < b.addr) (hpost : ∀ c ∈ post, b.stop ≤ c.addr) :
    findPrev b.addr turns s.freep s = .ok (p.addr, s) := by
  obtain ⟨q, hq, hfreep⟩ := h.roving
  obtain ⟨m, hm, hperm⟩ := h.listed.rotate rfl hq
  obtain ⟨x, y, hxy⟩ := List.append_of_mem (hperm.mem_iff.2 (hring ▸ by simp : p ∈ ring base free))
  obtain ⟨hp, hother⟩ := h.stops hb hring hpb hpost
  have hnodup := hperm.nodup_iff.2 h.addr_nodup.of_map
  rw [hxy] at hm hperm hnodup
  have hmem {c : Block} (hc : c ∈ x ++ [p]) : c ∈ ring base free := hperm.mem_iff.1 (by grind)
  have hlen : x.length < turns := by
    have := hperm.length_eq
    have := h.length_lt
    rw [List.length_append, List.length_cons] at *
    rw [turns]
    omega
  have hfirst : s.freep = first (x ++ p :: y) q.addr := by rw [← hxy, first_cons, hfreep]
  rw [hfirst]
  refine findPrev_eq hm (fun c hc => (h.mapped (hmem hc)).2.1) (fun c hc => hother c ?_) hp hlen
  have hne : c ≠ p := by
    rintro rfl
    grind
  have := hmem (List.mem_append_left [p] hc)
  rw [hring] at this
  grind

theorem free_eq (h : Ready base start s free live) (hb : b ∈ live)
    (hring : ring base free = pre ++ p :: post) (hpb : p.addr < b.addr)
    (hpost : ∀ c ∈ post, b.stop ≤ c.addr) : ∃ hb' hp',
    Umalloc.free (b.addr + 8) s = .ok ((), { (s.put b.addr hb').put p.addr hp' with freep := p.addr }) ∧
    Listed (update (update s.hdr b.addr hb') p.addr hp') (join p (join b post)) base := by
  have hinside := h.live_inside b hb
  have hlt := hinside.addr_lt
  have hpos := hinside.pos
  have hsz := h.sz_lt
  have hle := h.sz_le
  have hbase := h.base_lt
  have hstop := hinside.stop_le
  have hstart := hinside.start_le
  obtain ⟨-, hptop, hpstop⟩ : base ≤ p.addr ∧ p.addr + 8 ≤ s.top ∧ p.stop < 2 ^ 32 :=
    h.mapped (by rw [hring]; simp)
  have hlisted := h.listed
  rw [hring, listed_append] at hlisted
  have hafter : ∀ c ∈ post, c.addr ≠ b.addr ∧ c.addr + 8 ≤ s.top ∧ c.stop < 2 ^ 32 := fun c hc => by
    have := hpost c hc
    obtain ⟨_, htop, hstop⟩ := h.mapped (c := c) (hring ▸ by simp [hc])
    omega
  have hbtop : b.addr + 8 ≤ s.top := by
    rw [Block.stop] at hstop
    omega
  obtain ⟨hb', hlink, hjoin⟩ := linkTo_eq (x := b) (e := base) hbtop (by omega) (h.live_size b hb)
    hlisted.2.2 (fun _ => by omega) hafter
  have hsize : ((s.put b.addr hb').hdr p.addr).size = p.size := by
    rw [← hlisted.2.size List.mem_cons_self]
    exact congrArg Header.size (update_of_ne hpb.ne ..)
  have hjoined : ∀ c ∈ join b post, c.addr ≠ p.addr ∧ c.addr + 8 ≤ s.top ∧ c.stop < 2 ^ 32 := by
    intro c hc
    obtain ⟨hcpos, -, hcstop⟩ := inside_join hinside (fun c hc => h.free_inside c (mem_free_of_post hring hc)) c hc
    have hpc : p.addr < c.addr := by
      obtain heq | hc := addr_of_mem_join hc
      · rwa [heq]
      · have := hpost c hc
        omega
    have hcs := hcstop
    rw [Block.stop] at hcs
    omega
  obtain ⟨hp', hlink', hjoin'⟩ := linkTo_eq (x := p) (s := s.put b.addr hb') (e := base) hptop hpstop hsize
    hjoin (fun hnil => by cases post <;> simp [join] at hnil; split at hnil <;> cases hnil) hjoined
  refine ⟨hb', hp', ?_, hjoin'⟩
  have hbp : (b.addr + 8 + (2 ^ 32 - 8)) % 2 ^ 32 = b.addr := by omega
  have hptr : (s.hdr p.addr).ptr = first post base := by rw [hlisted.2.1]
  rw [first_join] at hlink'
  rw [Umalloc.free, hbp]
  rw [bind_ok get_eq, bind_ok (h.findPrev_place hinside hring hpb hpost), bind_ok (load_eq hptop), hptr, bind_ok hlink,
    bind_ok hlink']
  rfl

theorem covers_ring (base : Nat) (free : List Block) (i : Nat) : Covers (ring base free) i ↔ Covers free i := by
  rw [ring, covers_cons]
  refine or_iff_right fun ⟨hle, hlt⟩ => ?_
  rw [stop] at hlt
  exact absurd hlt (Nat.not_lt.2 hle)

theorem exists_ring (h : Ready base start s free live) (hb : b.Inside start s.sz)
    (hring : ring base free = pre ++ p :: post) : ∃ free', ring base free' = pre ++ join p (join b post) ∧
      ∀ c ∈ free', c.Inside start s.sz := by
  have hjoin := inside_join hb fun c hc => h.free_inside c (mem_free_of_post hring hc)
  cases pre with
  | nil =>
    obtain ⟨rfl, rfl⟩ := List.cons.inj hring
    refine ⟨join b free, (join_of_first_ne (e := 0) ?_).symm, hjoin⟩
    have := h.base_lt
    have := hb.start_le
    rw [first_join]
    exact (by omega : base + 8 * 0 ≠ b.addr)
  | cons d pre =>
    obtain ⟨rfl, rfl⟩ := List.cons.inj hring
    refine ⟨pre ++ join p (join b post), rfl, fun c hc => ?_⟩
    obtain hc | hc := List.mem_append.1 hc
    · exact h.free_inside c (List.mem_append_left _ hc)
    · exact inside_join (h.free_inside p (by simp)) hjoin c hc

theorem freed (h : Ready base start s free (l₁ ++ b :: l₂)) : ∃ t free',
    Umalloc.free (b.addr + 8) s = .ok ((), t) ∧ t.sz = s.sz ∧ Ready base start t free' (l₁ ++ l₂) ∧
      ∃ c ∈ free', b.size ≤ c.size := by
  have hb : b ∈ l₁ ++ b :: l₂ := by simp
  have hinside := h.live_inside b hb
  obtain ⟨pre, p, post, hring, hp, hpb, hpost⟩ := h.place hb
  obtain ⟨hb', hp', hfree, hlisted⟩ := h.free_eq hb hring hpb hpost
  obtain ⟨free', hring', hfree'⟩ := h.exists_ring hinside hring
  have hlive {x : Block} (hx : x ∈ l₁ ++ l₂) : x ∈ l₁ ++ b :: l₂ := by grind
  have hcovers (i : Nat) : Covers free' i ↔ b.Has i ∨ Covers free i := by
    rw [← covers_ring base free', ← covers_ring base free, hring, hring', covers_append, covers_append, covers_join,
      covers_join, covers_cons]
    grind
  have hbelow := h.below
  have hold := h.listed
  rw [hring] at hbelow
  rw [hring, listed_append] at hold
  obtain ⟨hpre, hppost, hcross⟩ := List.pairwise_append.1 hbelow
  obtain ⟨hbapart, hapart⟩ := List.pairwise_cons.1 ((List.pairwise_middle fun {_ _} => Apart.symm).1 h.live_apart)
  have hframe {a : Nat} (hab : a ≠ b.addr) (hap : a ≠ p.addr) :
      update (update s.hdr b.addr hb') p.addr hp' a = s.hdr a := by
    rw [update_of_ne hap, update_of_ne hab]
  have hpjoin : ∀ c ∈ join b post, p.stop ≤ c.addr := fun c hc => by
    obtain heq | hc := addr_of_mem_join hc
    · rwa [heq]
    · have := hpost c hc
      have := b.addr_le_stop
      omega
  refine ⟨_, free', hfree, rfl, ⟨⟨h.base_pos, h.base_lt, h.start_le, h.sz_lt, h.sz_le⟩, ?_, ?_, ?_, hfree',
    fun x hx => h.live_inside x (hlive hx), fun x hx => ?_, fun x hx c hc i hxi hci => ?_, hapart⟩, ?_⟩
  · rw [hring', listed_append, first_join]
    refine ⟨hold.1.frame fun c hc => hframe ?_ ?_, hlisted⟩ <;>
    · have hcp := hcross c hc p List.mem_cons_self
      have := c.addr_le_stop
      rw [Below] at hcp
      omega
  · rw [hring']
    refine List.pairwise_append.2 ⟨hpre, pairwise_join (pairwise_join (List.pairwise_cons.1 hppost).2 hpost) hpjoin,
      fun c hc d hd => ?_⟩
    have hcp := hcross c hc p List.mem_cons_self
    have := p.addr_le_stop
    rw [Below] at *
    obtain heq | hd := addr_of_mem_join hd
    · rwa [heq]
    · have := hpjoin d hd
      omega
  · obtain ⟨q, hq, haddr⟩ := exists_addr_join p (join b post)
    exact ⟨q, hring' ▸ List.mem_append_right _ hq, haddr⟩
  · have hxb : x.addr ≠ b.addr := fun heq => hbapart x hx x.addr (heq ▸ hinside.has) (h.live_inside x (hlive hx)).has
    have hxp : x.addr ≠ p.addr := h.ne_addr (hlive hx) (by rw [hring]; simp)
    rw [← h.live_size x (hlive hx)]
    exact congrArg Header.size (hframe hxb hxp)
  · obtain hbi | hcov := (hcovers i).1 ⟨c, hc, hci⟩
    · exact hbapart x hx i hbi hxi
    · exact h.not_covers (hlive hx) i hxi hcov
  · obtain ⟨c, hc, hbc⟩ := exists_mem_join (List.mem_cons_self : b ∈ b :: post)
    obtain ⟨d, hd, hcd⟩ := exists_mem_join (List.mem_cons_of_mem p hc)
    have hd' : d ∈ ring base free' := hring' ▸ List.mem_append_right _ hd
    have := hinside.pos
    obtain rfl | hd' := List.mem_cons.1 hd'
    · exact absurd (hbc.trans hcd) (Nat.not_le.2 hinside.pos)
    · exact ⟨d, hd', hbc.trans hcd⟩

end Ready

end Xv6.Umalloc
