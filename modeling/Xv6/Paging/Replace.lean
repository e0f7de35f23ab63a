import Xv6.Paging.Arguments
import Xv6.Paging.Copy
import Xv6.Paging.Grow

namespace Xv6.Paging

open Lib Prog
open Vm (Page Layout maxPage kernbase phystop)

theorem Space.of_free (h : Space L m l pd none) (hchain : Chain m'.word m'.freelist l') (hnodup : l'.Nodup)
    (hram : ∀ q ∈ l', Ram L q) (hused : ∀ P q, m.num pd none P = some q → q ∉ l' ∧ m'.word q = m.word q) :
    Space L m' l' pd none := by
  have hnum : m'.num pd none = m.num pd none :=
    Mem.num_congr (hused .dir pd rfl).2 fun i t ht => (hused (.table i) t ht).2
  refine ⟨hchain, hnodup, ?_⟩
  rw [hnum]
  refine ⟨h.owns.inArea, h.owns.once, ?_, ?_⟩
  · rintro P - - ⟨q, hq, hP⟩
    exact (hused P q hP).1 hq
  · rintro _ ⟨q, hq, rfl⟩ _ ⟨⟩
    exact hram q hq

structure Stacked (m : Mem) (l : List Page) (p : Proc) : Prop where
  phys : p.kstack < phystop
  free : p.kstack ∉ l
  apart : ∀ P, m.num p.pgdir none P ≠ some p.kstack

theorem Process.size_lt (h : Process L m l p) : p.sz.toNat ≤ 0xE000000 := by
  have hcount := pageCount_le h.size
  have hphys : pageCount p.sz ≤ phystop := h.space.pageCount_le_phystop fun b hb =>
    (h.mapped b (lt_of_lt_of_le hb hcount)).mpr (lt_pageCount.mp hb)
  simp only [pageCount, phystop] at hphys
  omega

theorem replace_ends (h : Process L m l p) (hk : Stacked m l p)
    (hsz : sz ≤ 0x80000000) (himage : Image L (· ∈ l) m d sz m') :
    Ends (do
      store p.kstack 1019 eip
      store p.kstack 1022 esp
      freevm L p.pgdir
      return ({ p with pgdir := d, sz := sz, name := name }, (0 : Int))) m' fun r m'' =>
      r.2 = 0 ∧ ∃ l'', Process L m'' l'' r.1 := by
  obtain ⟨l', hinv⟩ := himage.inv
  have hsub : ∀ q ∈ l', q ∈ l := fun q hq => hinv.region_of_free hq
  refine store_bind hk.phys (store_bind hk.phys ?_)
  generalize hm₂ : (m'.setWord p.kstack 1019 eip).setWord p.kstack 1022 esp = m₂
  have hword : ∀ q, q ≠ p.kstack → m₂.word q = m'.word q := by
    intro q hq
    rw [← hm₂, Mem.word_setWord_of_ne hq, Mem.word_setWord_of_ne hq]
  have hchain : Chain m₂.word m₂.freelist l' := by
    rw [show m₂.freelist = m'.freelist by rw [← hm₂]; rfl]
    refine hinv.chain.congr fun q hq => hword q ?_
    rintro rfl
    exact hk.free (hsub _ hq)
  have hold : ∀ P q, m.num p.pgdir none P = some q → q ∉ l' ∧ m₂.word q = m.word q := by
    intro P q hP
    have hq : q ∉ l := h.space.inv.not_free hP
    have hne : q ≠ p.kstack := fun heq => hk.apart P (heq ▸ hP)
    exact ⟨mt (hsub q) hq, (hword q hne).trans (hinv.outside q hq)⟩
  have hspace := h.space.of_free hchain hinv.nodup (fun q hq => hinv.ram_free hq) hold
  have hnum : m₂.num p.pgdir none = m.num p.pgdir none :=
    Mem.num_congr (hold .dir _ rfl).2 fun i t ht => (hold (.table i) t ht).2
  refine (freevm_ends hspace.inv).bind fun _ m₃ hm₃ => ?_
  obtain ⟨l₃, hm₃⟩ := hm₃
  have hnew : ∀ P q, m'.num d none P = some q → q ∉ l₃ ∧ m₃.word q = m'.word q := by
    intro P q hP
    have hq : q ∈ l := hinv.region_of_place hP
    have hout : ¬(q ∈ l' ∨ ∃ P, m₂.num p.pgdir none P = some q) := by
      rintro (hfree | ⟨Q, hQ⟩)
      · exact hinv.not_free hP hfree
      · rw [hnum] at hQ
        exact h.space.inv.not_free hQ hq
    refine ⟨fun hfree => hout ((hm₃.cover q).mpr hfree), (hm₃.outside q hout).trans (hword q ?_)⟩
    rintro rfl
    exact hk.free hq
  have hram : ∀ q ∈ l₃, Ram L q := by
    intro q hq
    rcases (hm₃.cover q).mpr hq with hfree | ⟨Q, hQ⟩
    · exact hinv.ram_free hfree
    · exact hspace.inv.ram hQ
  have hdir := (hnew .dir d rfl).2
  have hpte : m₃.pte d = m'.pte d := Mem.pte_congr hdir fun i t ht => (hnew (.table i) t ht).2
  refine .pure ⟨rfl, l₃, hinv.toSpace.of_free hm₃.chain hm₃.nodup hram hnew, hsz, fun k hk => ?_⟩
  rw [hpte, himage.mapped k hk, lt_pageCount]

theorem take_of_readAll {bs file : List Byte} (h : readAll file 0 52 = some bs) : bs = file.take 52 := by
  rw [readAll, Option.filter_eq_some_iff, readi] at h
  split at h
  case isTrue => exact absurd h.1 (by simp)
  case isFalse =>
    exact (Option.some.inj h.1).symm

def Reaches (L : Layout) (file : List Byte) (m : Mem) : Prop :=
  readAll file 0 52 = some (file.take 52) ∧ (elfhdr (file.take 52)).magic = 0x464C457F ∧
    ∃ d m₁, setupkvm L m = .ok (some d, m₁) ∧ ReachesStack L d file m₁

def ArgumentsFit (L : Layout) (m : Mem) (file : Option (List Byte)) (argv : List (List Byte)) : Prop :=
  ∀ bs, file = some bs → Reaches L bs m → PushesFor bs argv

theorem exec_finishes {E : Stop → Prop} (h : Process L m l p) (hk : Stacked m l p)
    (hargs : ∀ s ∈ argv, s.length < p.sz.toNat)
    (hnull : ¬ArgumentsFit L m file argv → ∀ s, Finishes E null s fun _ _ => False) :
    Finishes E (execNull L null p path file argv) m fun r m' => ArgumentsFit L m file argv ∧
      ((r.2 = 0 ∧ ∃ l', Process L m' l' r.1) ∨ (r = (p, -1) ∧ ∃ l', AllFree (· ∈ l) m m' l')) := by
  have hfree : AllFree (· ∈ l) m m l := ⟨h.space.chain, h.space.nodup, fun _ => Iff.rfl, fun _ _ => rfl⟩
  have hsize := h.size_lt
  have hbad : ((p, (-1 : Int)).2 = 0 ∧ ∃ l', Process L m l' p) ∨
      ((p, (-1 : Int)) = (p, -1) ∧ ∃ l', AllFree (· ∈ l) m m l') :=
    .inr ⟨rfl, l, hfree⟩
  unfold execNull
  cases file with
  | none => exact .pure ⟨nofun, hbad⟩
  | some file =>
    have hfit : ArgumentsFit L m (some file) argv ↔ (Reaches L file m → PushesFor file argv) :=
      ⟨fun hfit => hfit file rfl, by rintro hfit _ ⟨⟩; exact hfit⟩
    rw [hfit] at hnull ⊢
    dsimp only
    cases hread : readAll file 0 52 with
    | none =>
      refine .pure ⟨?_, hbad⟩
      rintro ⟨hsome, -⟩
      cases hread.symm.trans hsome
    | some bs =>
      obtain rfl := take_of_readAll hread
      dsimp only
      split
      case isTrue hmagic => exact .pure ⟨fun hreach => absurd hreach.2.1 hmagic, hbad⟩
      case isFalse hmagic =>
      have hsetup := setupkvm_ends hfree fun q hq => h.space.inv.ram_free hq
      refine (hsetup.weaken fun _ => False.elim).bind_run ?_
      rintro (_ | d) m₁ hrun hm₁
      · refine .pure ⟨?_, .inr ⟨rfl, hm₁.2⟩⟩
        rintro ⟨-, -, d, _, hsome, -⟩
        cases hrun.symm.trans hsome
      · have hreach : Reaches L file m ↔ ReachesStack L d file m₁ := by
          constructor
          · rintro ⟨-, -, d', m', hsome, hstack⟩
            cases hrun.symm.trans hsome
            exact hstack
          · exact fun hstack => ⟨hread, not_not.mp hmagic, d, m₁, hrun, hstack⟩
        rw [hreach] at hnull ⊢
        refine (loadImage_finishes hm₁.2 (fun s hs => ?_) hnull).bind ?_
        · have := hargs s hs
          omega
        · rintro (_ | ⟨sz, sp⟩) m₂ ⟨hpush, hm₂⟩
          · obtain ⟨l₂, hinv⟩ := hm₂
            refine ((freevm_ends hinv).weaken fun _ => False.elim).bind fun _ m₃ hm₃ => ?_
            exact .pure ⟨hpush, .inr ⟨rfl, hm₃⟩⟩
          · refine ((replace_ends h hk hm₂.1 hm₂.2).weaken fun _ => False.elim).mono fun r m₃ hm₃ => ?_
            exact ⟨hpush, .inl hm₃⟩

/-- How a call of `exec` is to end: with the new address space and the old one freed, or with
nothing changed. -/
def Tolerated (L : Layout) (m : Mem) (l : List Page) (p : Proc) (x : Except Stop ((Proc × Int) × Mem)) : Prop :=
  ∃ p' r m', x = .ok ((p', r), m') ∧
    ((r = 0 ∧ ∃ l', Process L m' l' p') ∨
      (r = -1 ∧ p' = p ∧ m'.word p.kstack = m.word p.kstack ∧ m'.pte p.pgdir = m.pte p.pgdir ∧
        (∀ q ∉ l, m'.word q = m.word q) ∧ ∃ l', Chain m'.word m'.freelist l' ∧ l'.Perm l))

theorem tolerated_of_fit (path : List Byte) (null : M Word) (h : Process L m l p) (hk : Stacked m l p)
    (hargs : ∀ s ∈ argv, s.length < p.sz.toNat) (hfit : ArgumentsFit L m file argv) :
    Tolerated L m l p (execNull L null p path file argv m) := by
  obtain ⟨⟨p', r⟩, m', hrun, -, hm'⟩ :=
    (exec_finishes h hk hargs fun hno => absurd hfit hno).exists_ok fun _ => id
  refine ⟨p', r, m', hrun, ?_⟩
  rcases hm' with hm' | ⟨heq, l', hm'⟩
  · exact .inl hm'
  · cases heq
    refine .inr ⟨rfl, rfl, hm'.outside _ hk.free, h.space.untouched.pte_eq hm'.outside, hm'.outside, l', hm'.chain, ?_⟩
    exact (List.perm_ext_iff_of_nodup hm'.nodup h.space.nodup).mpr fun q => (hm'.cover q).symm

/-- The condition under which `exec` never reads through a null pointer is exact; and under it a
call ends well whatever is at address 0. -/
theorem exec_tolerates (path : List Byte) (h : Process L m l p) (hk : Stacked m l p)
    (hargs : ∀ s ∈ argv, s.length < p.sz.toNat) :
    (Tolerated L m l p (execNull L (throw .null) p path file argv m) ↔ ArgumentsFit L m file argv) ∧
      (ArgumentsFit L m file argv → Tolerated L m l p (exec L p path file argv m)) := by
  refine ⟨⟨?_, tolerated_of_fit path _ h hk hargs⟩, tolerated_of_fit path _ h hk hargs⟩
  rintro ⟨p', r, m', hrun, -⟩
  have hends : Finishes (· = .null) (execNull L (throw .null) p path file argv) m _ :=
    exec_finishes h hk hargs fun _ _ => .throw rfl
  exact (hends.of_ok hrun).1

def tinyElf : List Byte := [0x7F, 0x45, 0x4C, 0x46] ++ List.replicate 48 0

theorem stacked_oneProcess : Stacked oneProcess (List.range' 2000 2000) ⟨1000, 4096, 900, []⟩ where
  phys := by decide
  free := fun h => absurd (List.mem_range'_1.mp h).1 (by decide)
  apart := by
    rintro (_ | i | k | _) hP
    · cases hP
    · rw [Mem.num, table_oneProcess] at hP
      split at hP <;> cases hP
    · rw [Mem.num, frameAt_oneProcess] at hP
      split at hP <;> cases hP
    · cases hP

theorem exec_tolerates_empty :
    Tolerated layout oneProcess (List.range' 2000 2000) ⟨1000, 4096, 900, []⟩
      (exec layout ⟨1000, 4096, 900, []⟩ [97] (some tinyElf) [[97]] oneProcess) := by
  have hguard : guardPage tinyElf = 0 := by decide
  have hargs : ∀ s ∈ [([97] : List Byte)], s.length < (4096 : Word).toNat := by decide
  refine (exec_tolerates [97] process_oneProcess stacked_oneProcess hargs).2 ?_
  rintro bs ⟨⟩ -
  rw [PushesFor, hguard]
  exact fun _ => ⟨by decide, fun _ => trivial⟩

theorem Inv.rebase (h : Inv L region m₀ m l pd hand) (hq : ¬region q) :
    Inv L region (m₀.setPage q v) (m.setPage q v) l pd hand := by
  have hword : ∀ p, region p → (m.setPage q v).word p = m.word p := by
    intro p hp
    refine Mem.word_setPage_of_ne ?_
    rintro rfl
    exact hq hp
  have hnum : (m.setPage q v).num pd hand = m.num pd hand :=
    Mem.num_congr (hword _ (h.region_of_place (P := .dir) rfl)) fun i t ht =>
      hword t (h.region_of_place (P := .table i) ht)
  refine ⟨⟨h.chain.congr fun p hp => hword p (h.region_of_free hp), h.nodup, hnum ▸ h.owns⟩, hnum ▸ h.cover,
    fun p hp => ?_⟩
  by_cases hpq : p = q
  · rw [hpq, Mem.word_setPage_self, Mem.word_setPage_self]
  · rw [Mem.word_setPage_of_ne hpq, Mem.word_setPage_of_ne hpq, h.outside p hp]

theorem copyoutLoop_stray
    (hpd : pd < phystop) (hk : k < maxPage) (ht : m.table pd (Vm.pdx k) = none)
    (hnull : Finishes E null m fun r s => s = m ∧ r = w) (hw : present w = true) (hu : user w = true)
    (hp : frame w < phystop) (hlen : 4096 ≤ len.toNat)
    (h : Finishes E (copyoutLoop null pd fuel (addr (k + 1)) (fun j => buf (j + 4096)) (len - 4096))
      (m.setBytes (frame w) 0 4096 buf) R) : Finishes E (copyoutLoop null pd (fuel + 1) (addr k) buf len) m R := by
  have hne : len ≠ 0 := by
    rintro rfl
    exact absurd hlen (by decide)
  have hge : ¬len < 4096 - (addr k - addr k) := by
    rw [BitVec.sub_self, BitVec.not_lt, BitVec.le_def]
    exact hlen
  unfold copyoutLoop
  rw [if_neg hne, pgrounddown_addr hk]
  refine .bind (Q := fun r s => s = m ∧ r = some (frame w)) ?_ ?_
  · refine .bind (Q := fun r s => s = m ∧ r = w) (walkpgdir_bind hpd hk ?_) ?_
    · rw [ht]
      exact hnull
    · rintro r s ⟨hs, hr⟩
      have hp2v : (p2v (frame w) != 0) = true := bne_iff_ne.mpr (p2v_ne_zero hp)
      rw [hs, hr, hw, hu, hp2v]
      exact .pure ⟨rfl, rfl⟩
  · rintro r s ⟨hs, hr⟩
    rw [hs, hr]
    dsimp only
    rw [if_neg hge, BitVec.sub_self]
    refine memmove_bind hp ?_
    rw [addr_add]
    exact h

theorem readNull_ends (h : Space L m l pd none) (ht : m.table pd 0 = some t)
    (hp₀ : m.frameAt pd 0 = some p₀) (hw : m.word p₀ 0 = w) (hm' : ∀ q ∉ l, m'.word q = m.word q) :
    Finishes E (readNull pd) m' fun r s => s = m' ∧ r = w := by
  have hunt := h.untouched
  have hpte := Mem.pte_of_table (k := 0) ht
  obtain ⟨-, hpresent, hframe⟩ := Mem.frameAt_eq_some.mp hp₀
  unfold readNull
  refine walkpgdir_bind (k := 0) hunt.dir.2 (by decide) ?_
  rw [show Vm.pdx 0 = 0 from rfl, hunt.table_eq hm', ht]
  refine load_bind (hunt.table _ _ ht).2 ?_
  rw [hm' t (hunt.table _ _ ht).1, ← hpte, if_pos hpresent, hframe]
  refine readPage_bind (hunt.page _ _ hp₀).2 (.pure ⟨rfl, ?_⟩)
  rw [hm' p₀ (hunt.page _ _ hp₀).1, hw]

theorem copyout_stray (h : Space L m l pd none)
    (ht : m.table pd 0 = some t) (hp₀ : m.frameAt pd 0 = some p₀) (hw : m.word p₀ 0 = addr t ||| 4 ||| 1)
    (hinv : Inv L (· ∈ l) m m₃ l₃ d none) (hk : KernelMap m₃ d) (hlen : 4096 < len.toNat) :
    Ends (copyout (readNull pd) d (addr 1040383) buf len) m₃ fun ok m' => ok = false ∧ ∃ v,
      Inv L (· ∈ l) (m.setPage t v) m' l₃ d none ∧ ∀ k, byteOf v k = buf k.val := by
  have htram := h.inv.ram (P := .table 0) ht
  have htfree : t ∉ l := h.inv.not_free (P := .table 0) ht
  have hframe : frame (addr t ||| 4 ||| 1) = t := frame_entry htram.lt_maxPage (by decide)
  have hnone : m₃.table d (Vm.pdx 1040383) = none := by
    by_contra hne
    exact absurd ((hk.table _ (by decide)).mp hne) (by decide)
  have hrest : (len - 4096).toNat = len.toNat - 4096 := by
    have := len.isLt
    rw [BitVec.toNat_sub, show (4096 : Word).toNat = 4096 from rfl]
    omega
  refine copyoutLoop_stray (hinv.ram (P := .dir) rfl).2 (by decide) hnone (readNull_ends h ht hp₀ hw hinv.outside)
    present_entry user_entry (by rw [hframe]; exact htram.2) hlen.le ?_
  rw [hframe]
  have hinv' := hinv.rebase (q := t) (v := ofBytes fun k => if 0 ≤ k.val ∧ k.val < 0 + 4096 then buf (k.val - 0)
    else byteOf (m₃.word t) k) htfree
  have hword : ∀ q, q ∈ l → (m₃.setBytes t 0 4096 buf).word q = m₃.word q := by
    intro q hq
    refine Mem.word_setPage_of_ne ?_
    rintro rfl
    exact htfree hq
  have hdir := hword d (hinv.region_of_place (P := .dir) rfl)
  have hk' := hk.congr (Mem.pte_congr hdir fun i t ht => hword t (hinv.region_of_place (P := .table i) ht))
    (Mem.table_congr hdir)
  have htop : (0xFE000000 : Nat) ≤ (addr 1040384).toNat := by decide
  refine (copyoutLoop_ends hinv' hk' (fun hne => absurd (hk'.tabled_of_device htop) hne) (by omega)).mono ?_
  rintro ok m' ⟨hinv'', hcopied, -⟩
  refine ⟨?_, _, hinv'', fun k => ?_⟩
  · by_contra hok
    have hacc := (hcopied.all (Bool.eq_true_of_not_eq_false hok) 0 (by omega)).1
    rw [after_zero] at hacc
    exact hk'.not_accessible (by decide) hacc
  · rw [byteOf_ofBytes, if_pos ⟨Nat.zero_le _, by omega⟩, Nat.sub_zero]

def Strayed (L : Layout) (l : List Page) (m : Mem) (t d : Page) (s : List Byte) (m' : Mem) : Prop :=
  ∃ v l', Inv L (· ∈ l) (m.setPage t v) m' l' d none ∧ ∀ k, byteOf v k = s.getD k.val 0

theorem readAll_tinyElf : readAll tinyElf 0 52 = some tinyElf := by decide

theorem exec_stray (path : List Byte) (h : Process L m l p) (ht : m.table p.pgdir 0 = some t)
    (hp₀ : m.frameAt p.pgdir 0 = some p₀) (hw : m.word p₀ 0 = addr t ||| 4 ||| 1) (hlong : 1028 < l.length)
    (hs : s.length = 33566719) :
    Ends (exec L p path (some tinyElf) [s]) m fun r m' => r = (p, -1) ∧ ∃ v l', AllFree (· ∈ l) (m.setPage t v) m' l' ∧
      ∀ k, byteOf v k = s.getD k.val 0 := by
  have htfree : t ∉ l := h.space.inv.not_free (P := .table 0) ht
  have htram := h.space.inv.ram (P := .table 0) ht
  have hfree : AllFree (· ∈ l) m m l := ⟨h.space.chain, h.space.nodup, fun _ => Iff.rfl, fun _ _ => rfl⟩
  have hnot : ¬Short (· ∈ l) (pageCount 8192) := by
    intro hshort
    have hle : l.length ≤ 1026 + 2 := hshort l h.space.nodup fun _ hq => hq
    omega
  obtain ⟨d, m₁, m₂, hrun₁, hrun₂, himage, -⟩ :=
    setupkvm_allocuvm hfree (fun q hq => h.space.inv.ram_free hq) hnot (by decide)
  have hlen : BitVec.ofNat 32 (s.length + 1) = 33566720 := by rw [hs]; rfl
  unfold exec execNull
  dsimp only
  rw [readAll_tinyElf]
  dsimp only
  rw [if_neg (by decide)]
  refine .run hrun₁ (.bind (Q := fun r m' => r = none ∧ Strayed L l m t d s m') ?_ ?_)
  · have hsegments : loadSegments L tinyElf d (elfhdr tinyElf).phnum (elfhdr tinyElf).phoff 0 m₁ = .ok (some 0, m₁) := by
      rw [show (elfhdr tinyElf).phnum = 0 by decide]
      rfl
    refine .run hsegments ?_
    dsimp only
    unfold addStack
    rw [show Vm.pgroundup 0 = 0 by decide]
    dsimp only
    rw [show (0 + 8192 : Word) = 8192 from rfl]
    refine .run hrun₂ ?_
    rw [if_neg (by decide), show (8192 - 8192 : Word) = addr 0 from rfl]
    refine (clearpteu_ends himage (by decide) (by decide)).bind fun _ m₃ hm₃ => ?_
    obtain ⟨l₃, hinv₃⟩ := hm₃.1.inv
    refine .bind (Q := fun r m' => r = none ∧ Strayed L l m t d s m')
      (.bind (Q := fun r m' => r = none ∧ Strayed L l m t d s m') ?_ ?_) ?_
    · unfold pushArgs
      rw [if_neg (by decide)]
      dsimp only
      rw [hlen, show ((8192 - 33566720 : Word) &&& ~~~3) = addr 1040383 by decide]
      refine (copyout_stray h.space ht hp₀ hw hinv₃ hm₃.1.kernel (by decide)).bind ?_
      rintro ok m' ⟨rfl, v, hinv, hv⟩
      exact .pure ⟨rfl, v, l₃, hinv, hv⟩
    · rintro r m' ⟨rfl, hm'⟩
      exact .pure ⟨rfl, hm'⟩
    · rintro r m' ⟨rfl, hm'⟩
      exact .pure ⟨rfl, hm'⟩
  · rintro r m' ⟨rfl, v, l', hinv, hv⟩
    refine (freevm_ends hinv).bind fun _ m₃ hm₃ => ?_
    obtain ⟨l₃, hm₃⟩ := hm₃
    exact .pure ⟨rfl, v, l₃, hm₃, hv⟩

theorem exec_not_tolerates : ∃ d m₁ m₂ p₀ t l m₃ m₄, setupkvm layout freeMemory = .ok (some d, m₁) ∧
    allocuvm layout d 0 0x2400000 m₁ = .ok (0x2400000, m₂) ∧ m₂.frameAt d 0 = some p₀ ∧ m₂.table d 0 = some t ∧
    m₃ = m₂.setWord p₀ 0 (addr t ||| 4 ||| 1) ∧ Process layout m₃ l ⟨d, 0x2400000, 50000, []⟩ ∧
    exec layout ⟨d, 0x2400000, 50000, []⟩ [] (some tinyElf) [List.replicate 33566719 2] m₃ =
      .ok ((⟨d, 0x2400000, 50000, []⟩, -1), m₄) ∧
    present (m₃.pte d 0) = true ∧ present (m₄.pte d 0) = false := by
  have hsize : (0x2400000 : Word) < 0x80000000 := by decide
  obtain ⟨d, m₁, m₂, hrun₁, hrun₂, himage, -⟩ :=
    setupkvm_allocuvm allFree_freeMemory ram_freeMemory (not_short_freeMemory (by decide)) hsize
  obtain ⟨l, hinv⟩ := himage.inv
  have hp₀ := himage.frameAt (by decide) (show 0 < pageCount 0x2400000 by decide)
  generalize frame (m₂.pte d 0) = p₀ at hp₀
  obtain ⟨t, ht, -⟩ := Mem.exists_table (Mem.frameAt_eq_some.mp hp₀).2.1
  rw [show Vm.pdx 0 = 0 from rfl] at ht
  obtain ⟨m₃, hm₃⟩ : ∃ m₃, m₃ = m₂.setWord p₀ 0 (addr t ||| 4 ||| 1) := ⟨_, rfl⟩
  have hword : ∀ {P q}, m₂.num d none P = some q → P ≠ .page 0 → m₃.word q = m₂.word q := by
    intro P q hP hne
    rw [hm₃]
    exact Mem.word_setWord_of_ne (hinv.ne (Q := .page 0) hP hp₀ hne)
  have hdir := hword (P := .dir) rfl (by rintro ⟨⟩)
  have htable : m₃.table d = m₂.table d := Mem.table_congr hdir
  have hpte : m₃.pte d = m₂.pte d := Mem.pte_congr hdir fun i t ht => hword (P := .table i) ht (by rintro ⟨⟩)
  have hinv₃ : Inv layout (· ∈ List.range' 1000 40000) freeMemory m₃ l d none := by
    rw [hm₃]
    exact hinv.setPage (P := .page 0) hp₀ (by rintro ⟨⟩) (by rintro i ⟨⟩)
  have hprocess : Process layout m₃ l ⟨d, 0x2400000, 50000, []⟩ := by
    refine ⟨hinv₃.toSpace, show (0x2400000 : Word) ≤ 0x80000000 by decide, fun k hk => ?_⟩
    rw [hpte, himage.mapped k hk, lt_pageCount]
  have hlong : 1028 < l.length := by
    have hle := hinv.length_le (fun b => himage.frameAt_eq_none) List.nodup_range' fun _ hq => hq
    rw [List.length_range', show pageCount 0x2400000 = 9216 by decide] at hle
    omega
  have hw : m₃.word p₀ 0 = addr t ||| 4 ||| 1 := by rw [hm₃, Mem.word_setWord_self, Function.update_self]
  have hp₀' : m₃.frameAt d 0 = some p₀ := by rw [Mem.frameAt_congr (congrFun hpte 0), hp₀]
  have ht' : m₃.table d 0 = some t := by rw [htable, ht]
  obtain ⟨r, m₄, hrun, rfl, v, l₄, hfree, hv⟩ := (exec_stray [] hprocess ht' hp₀' hw hlong
    (List.length_replicate (n := 33566719) (a := (2 : Byte)))).exists_ok fun _ => id
  refine ⟨d, m₁, m₂, p₀, t, l, m₃, m₄, hrun₁, hrun₂, hp₀, ht, hm₃, hprocess, hrun, (Mem.frameAt_eq_some.mp hp₀').2.1, ?_⟩
  have hdir₄ : m₄.word d = m₃.word d := by
    rw [hfree.outside d (hinv₃.not_free (P := .dir) rfl)]
    exact Mem.word_setPage_of_ne (hinv₃.table_ne_dir ht').symm
  have hentry : m₄.pte d 0 = v 0 := by
    have ht₄ : m₄.table d (Vm.pdx 0) = some t := by rw [Mem.table_congr hdir₄]; exact ht'
    rw [Mem.pte_of_table ht₄, hfree.outside t (hinv₃.not_free (P := .table 0) ht'), Mem.word_setPage_self]
    rfl
  have hbyte : byteOf v 0 = 2 := by
    rw [hv 0, List.getD_eq_getElem?_getD, List.getElem?_replicate]
    rfl
  have hbit : (byteOf v 0).getLsbD 0 = (v 0).getLsbD 0 := by
    change ((v 0).extractLsb' 0 8).getLsbD 0 = _
    simp
  rw [hentry, present, ← hbit, hbyte]
  rfl

end Xv6.Paging
