import Xv6.Vm.System
import Xv6.Vm.Balance

namespace Xv6.Vm

open Function Lib Prog
open Fs (FileType nofile nfile)

def Allowed (e : Halt) : Prop := e ≠ .panic "filedup" ∧ e ≠ .panic "fileclose"

theorem Allowed.mem (e : Stop) : Allowed (.mem e) := ⟨(nomatch ·), (nomatch ·)⟩

def File.IsEnd (x : File) (p : Page) (writable : Bool) : Prop :=
  x.type = .fdPipe ∧ x.pipe = p ∧ x.writable = writable

def Pipe.isOpen (q : Pipe) (writable : Bool) : Bool := if writable then q.writeopen else q.readopen

def filePages (fs : Files) : Multiset Page := free fs.kmem + (fs.pipes.map Pipe.page : List Page)

structure Books (n : Fin nfile → Nat) (P : Multiset Page) (fs : Files) : Prop where
  ref : ∀ f, (fs.file f).ref = n f
  idle : ∀ f, n f = 0 → (fs.file f).type = .fdNone
  distinct : (fs.pipes.map Pipe.page).Nodup
  ends : ∀ p w, (∃ q ∈ fs.pipes, q.page = p ∧ q.isOpen w) ↔ ∃ f, (fs.file f).IsEnd p w
  alone : ∀ f g p w, (fs.file f).IsEnd p w → (fs.file g).IsEnd p w → f = g
  used : ∀ q ∈ fs.pipes, ∃ w, q.isOpen w
  pages : filePages fs = P

variable {n n' : Fin nfile → Nat} {P : Multiset Page} {fs : Files} {f : Fin nfile} {L : Layout} {x : File}
  {α : Type}

theorem Pipe.isOpen_not {q : Pipe} {w : Bool} (h : ¬(q.readopen = false ∧ q.writeopen = false)) (hw : q.isOpen w = false) :
    q.isOpen (!w) = true := by
  cases w <;> simp_all [Pipe.isOpen]

namespace Books

theorem put (h : Books n P fs) (hn : ∀ g ≠ f, n' g = n g) (href : x.ref = n' f)
    (hidle : n' f = 0 → x.type = .fdNone) (hend : ∀ p w, x.IsEnd p w ↔ (fs.file f).IsEnd p w) :
    Books n' P { fs with file := update fs.file f x } := by
  have hfile : ∀ g p w, (update fs.file f x g).IsEnd p w ↔ (fs.file g).IsEnd p w := by
    intro g p w
    by_cases hg : g = f
    · subst hg
      rw [update_self, hend]
    · rw [update_of_ne hg]
  refine ⟨fun g => ?_, fun g hg => ?_, h.distinct, fun p w => ?_, fun g g' p w hg hg' => ?_, h.used, h.pages⟩
  · by_cases hgf : g = f
    · subst hgf
      simpa using href
    · simpa [hgf, hn g hgf] using h.ref g
  · by_cases hgf : g = f
    · subst hgf
      simpa using hidle hg
    · rw [hn g hgf] at hg
      simpa [hgf] using h.idle g hg
  · simp only [hfile]
    exact h.ends p w
  · exact h.alone g g' p w ((hfile g p w).mp hg) ((hfile g' p w).mp hg')

theorem mem_erase (h : Books n P fs) (hq : q ∈ fs.pipes) :
    r ∈ fs.pipes.erase q ↔ r ∈ fs.pipes ∧ r.page ≠ q.page := by
  rw [(List.Nodup.of_map _ h.distinct).mem_erase_iff, and_comm, and_congr_right_iff]
  intro hr
  refine not_congr ⟨fun heq => by rw [heq], fun heq => ?_⟩
  exact List.inj_on_of_nodup_map h.distinct hr hq heq

theorem closeEnd (h : Books n P fs) {q : Pipe} {w : Bool} {pipes : List Pipe} {kmem : Kmem} {P' : Multiset Page}
    (hf : (fs.file f).IsEnd q.page w) (hn : ∀ g ≠ f, n' g = n g) (hnf : n' f = 0)
    (href : x.ref = 0) (htype : x.type = .fdNone) (hdistinct : (pipes.map Pipe.page).Nodup)
    (hused : ∀ r ∈ pipes, ∃ v, r.isOpen v)
    (hends : ∀ p v, (∃ r ∈ pipes, r.page = p ∧ r.isOpen v) ↔
      (∃ r ∈ fs.pipes, r.page = p ∧ r.isOpen v) ∧ ¬(p = q.page ∧ v = w))
    (hpages : filePages ⟨kmem, update fs.file f x, pipes⟩ = P') :
    Books n' P' ⟨kmem, update fs.file f x, pipes⟩ := by
  have hx : ∀ p v, ¬ x.IsEnd p v := by
    rintro p v ⟨ht, -⟩
    rw [htype] at ht
    cases ht
  have hfile : ∀ g p v, (update fs.file f x g).IsEnd p v ↔ g ≠ f ∧ (fs.file g).IsEnd p v := by
    intro g p v
    by_cases hg : g = f
    · subst hg
      simp [hx]
    · simp [hg]
  refine ⟨fun g => ?_, fun g hg => ?_, hdistinct, fun p v => ?_, fun g g' p v hg hg' => ?_, hused, hpages⟩
  · by_cases hgf : g = f
    · subst hgf
      simp [href, hnf]
    · simpa [hgf, hn g hgf] using h.ref g
  · by_cases hgf : g = f
    · subst hgf
      simp [htype]
    · rw [hn g hgf] at hg
      simpa [hgf] using h.idle g hg
  · simp only [hfile]
    rw [hends, h.ends]
    constructor
    · rintro ⟨⟨g, hg⟩, hne⟩
      refine ⟨g, ?_, hg⟩
      rintro rfl
      exact hne ⟨hg.2.1.symm.trans hf.2.1, hg.2.2.symm.trans hf.2.2⟩
    · rintro ⟨g, hgf, hg⟩
      refine ⟨⟨g, hg⟩, ?_⟩
      rintro ⟨rfl, rfl⟩
      exact hgf (h.alone g f _ _ hg hf)
  · exact h.alone g g' p v ((hfile g p v).mp hg).2 ((hfile g' p v).mp hg').2

end Books

theorem onKmem_finishes {x : K α} {Q : α → Files → Prop}
    (h : ∀ a k, x fs.kmem = .ok (a, k) → Q a { fs with kmem := k }) : Finishes Allowed (onKmem x) fs Q := by
  unfold Finishes onKmem
  cases hx : x fs.kmem with
  | error e => exact Allowed.mem e
  | ok r => exact h r.1 r.2 hx

theorem Books.kmem (h : Books n P fs) (hk : free k + o = free fs.kmem + i) :
    ∃ P', P' + o = P + i ∧ Books n P' { fs with kmem := k } := by
  refine ⟨_, ?_, h.ref, h.idle, h.distinct, h.ends, h.alone, h.used, rfl⟩
  rw [← h.pages, filePages, filePages, add_right_comm, hk, add_right_comm]

theorem File.IsEnd.ne_none (h : x.IsEnd p w) : x.type ≠ .fdNone := by
  rw [h.1]
  decide

theorem File.not_isEnd (h : x.type ≠ .fdPipe) (p : Page) (w : Bool) : ¬ x.IsEnd p w := fun he => h he.1

theorem filealloc_finishes (h : Books n P fs) :
    Finishes Allowed filealloc fs fun r t => match r with
      | none => Books n P t
      | some f => n f = 0 ∧ Books (n + Pi.single f 1) P t ∧ (t.file f).type = .fdNone ∧
          ∀ g ≠ f, t.file g = fs.file g := by
  refine .get ?_
  cases hfind : (List.finRange nfile).find? fun f => (fs.file f).ref = 0 with
  | none => exact h
  | some f =>
    have href : (fs.file f).ref = 0 := by simpa using List.find?_some hfind
    have hnf : n f = 0 := by
      have := h.ref f
      omega
    refine ⟨hnf, h.put ?_ ?_ ?_ fun p w => Iff.rfl, ?_, fun g hg => update_of_ne hg _ _⟩
    · intro g hg
      simp [hg]
    · simp [hnf]
    · simp
    · simpa using h.idle f hnf

theorem filedup_finishes (h : Books n P fs) (hf : n f ≠ 0) :
    Finishes Allowed (filedup f) fs fun _ t => Books (n + Pi.single f 1) P t := by
  have href := h.ref f
  refine .get ?_
  rw [if_neg (by omega)]
  refine h.put (fun g hg => ?_) ?_ (fun h0 => ?_) fun p w => Iff.rfl
  · simp [hg]
  · simp [href]
  · simp at h0

theorem setFile_finishes (h : Books n P fs) (hf : n f ≠ 0) (href : x.ref = (fs.file f).ref)
    (hold : (fs.file f).type = .fdNone) (hnew : x.type ≠ .fdPipe) :
    Finishes Allowed (setFile f x) fs fun _ t => Books n P t := by
  refine h.put (fun _ _ => rfl) (href.trans (h.ref f)) (fun h0 => absurd h0 hf) fun p w => ?_
  have hold' : (fs.file f).type ≠ .fdPipe := by
    rw [hold]
    decide
  exact iff_of_false (File.not_isEnd hnew p w) (File.not_isEnd hold' p w)

structure Pipe.Closes (q : Pipe) (w : Bool) (q' : Pipe) : Prop where
  page : q'.page = q.page
  closed : q'.isOpen w = false
  other : q'.isOpen (!w) = q.isOpen (!w)

theorem Books.eq_of_page (h : Books n P fs) (hq : q ∈ fs.pipes) (hr : r ∈ fs.pipes)
    (hpage : r.page = q.page) : r = q := List.inj_on_of_nodup_map h.distinct hr hq hpage

theorem ends_of_closes (h : Books n P fs) {q q' : Pipe} {w : Bool} (hq : q ∈ fs.pipes) (hq' : q.Closes w q')
    {pipes : List Pipe}
    (hpipes : ∀ r, r.page ≠ q.page → (r ∈ pipes ↔ r ∈ fs.pipes))
    (hkeep : ∀ v, (∃ r ∈ pipes, r.page = q.page ∧ r.isOpen v) ↔ q'.isOpen v) (p : Page) (v : Bool) :
    (∃ r ∈ pipes, r.page = p ∧ r.isOpen v) ↔
      (∃ r ∈ fs.pipes, r.page = p ∧ r.isOpen v) ∧ ¬(p = q.page ∧ v = w) := by
  by_cases hp : p = q.page
  · subst hp
    have hold : (∃ r ∈ fs.pipes, r.page = q.page ∧ r.isOpen v) ↔ q.isOpen v := by
      constructor
      · rintro ⟨r, hr, hpage, hopen⟩
        rwa [h.eq_of_page hq hr hpage] at hopen
      · exact fun hopen => ⟨q, hq, rfl, hopen⟩
    rw [hkeep, hold]
    by_cases hv : v = w
    · subst hv
      simp [hq'.closed]
    · obtain rfl : v = !w := by
        cases v <;> cases w <;> simp_all
      simp [hq'.other]
  · simp only [hp, false_and, not_false_eq_true, and_true]
    constructor
    · rintro ⟨r, hr, rfl, hopen⟩
      exact ⟨r, (hpipes r hp).mp hr, rfl, hopen⟩
    · rintro ⟨r, hr, rfl, hopen⟩
      exact ⟨r, (hpipes r hp).mpr hr, rfl, hopen⟩

theorem map_page_erase (hq : q ∈ fs.pipes) :
    ((fs.pipes.map Pipe.page : List Page) : Multiset Page) =
      {q.page} + ((fs.pipes.erase q).map Pipe.page : List Page) := by
  have hperm := (List.perm_cons_erase hq).map Pipe.page
  rw [Multiset.coe_eq_coe.mpr hperm]
  rfl

theorem pipeclose_finishes {p : Page} {w : Bool} (h : Books n P fs) (hf : (fs.file f).IsEnd p w)
    (hn : ∀ g ≠ f, n' g = n g) (hnf : n' f = 0) (href : x.ref = 0) (htype : x.type = .fdNone) :
    Finishes Allowed (pipeclose L p w) { fs with file := update fs.file f x }
      fun _ t => Books n' P t := by
  obtain ⟨q₀, hq₀, rfl, -⟩ := (h.ends p w).mpr ⟨f, hf⟩
  refine .get ?_
  dsimp only
  cases hfind : fs.pipes.find? fun r => r.page = q₀.page with
  | none => exact absurd (List.find?_eq_none.mp hfind q₀ hq₀) (by simp)
  | some q =>
    have hq := List.mem_of_find?_eq_some hfind
    have hpage : q.page = q₀.page := by simpa using List.find?_some hfind
    obtain rfl := h.eq_of_page hq hq₀ hpage.symm
    dsimp only
    generalize hclose : (if w then { q₀ with writeopen := false } else { q₀ with readopen := false }) = q'
    have hcloses : q₀.Closes w q' := by
      subst hclose
      cases w with
      | false => exact ⟨rfl, rfl, rfl⟩
      | true => exact ⟨rfl, rfl, rfl⟩
    have herase := map_page_erase hq
    have hdistinct : ((fs.pipes.erase q₀).map Pipe.page).Nodup := h.distinct.sublist (List.erase_sublist.map _)
    split
    case isTrue hboth =>
      refine .set (onKmem_finishes fun _ k hk => ?_)
      have hkfree := kfree_balances (i := 0) q₀.page _ _ _ hk
      refine h.closeEnd hf hn hnf href htype hdistinct (fun r hr => ?_) (ends_of_closes h hq hcloses ?_ ?_) ?_
      · exact h.used r (List.mem_of_mem_erase hr)
      · intro r hr
        rw [h.mem_erase hq]
        exact and_iff_left hr
      · intro v
        have hclosed : q'.isOpen v = false := by
          cases v with
          | false => exact hboth.1
          | true => exact hboth.2
        rw [hclosed]
        refine iff_of_false ?_ (by decide)
        rintro ⟨r, hr, hpage, -⟩
        exact ((h.mem_erase hq).mp hr).2 hpage
      · rw [← h.pages, filePages, filePages, herase, ← add_assoc]
        congr 1
        simpa using hkfree
    case isFalse hopen =>
      refine h.closeEnd hf hn hnf href htype ?_ ?_ (ends_of_closes h hq hcloses ?_ ?_) ?_
      · rw [List.map_cons, hcloses.page]
        refine List.nodup_cons.mpr ⟨fun hmem => ?_, hdistinct⟩
        obtain ⟨r, hr, hpage⟩ := List.mem_map.mp hmem
        exact ((h.mem_erase hq).mp hr).2 hpage
      · refine List.forall_mem_cons.mpr ⟨⟨!w, Pipe.isOpen_not hopen hcloses.closed⟩, fun r hr => ?_⟩
        exact h.used r (List.mem_of_mem_erase hr)
      · intro r hr
        rw [List.mem_cons, h.mem_erase hq, and_iff_left hr, or_iff_right]
        rintro rfl
        exact hr hcloses.page
      · intro v
        constructor
        · rintro ⟨r, hr, hpage, hv⟩
          rcases List.mem_cons.mp hr with rfl | hr
          · exact hv
          · exact absurd hpage ((h.mem_erase hq).mp hr).2
        · exact fun hv => ⟨q', List.mem_cons_self, hcloses.page, hv⟩
      · rw [← h.pages, filePages, filePages, herase, List.map_cons, hcloses.page]
        rfl

theorem fileclose_finishes (h : Books (n + Pi.single f 1) P fs) :
    Finishes Allowed (fileclose L f) fs fun _ t => Books n P t := by
  have href := h.ref f
  have hsum : (n + Pi.single f 1 : Fin nfile → Nat) f = n f + 1 := by simp
  have hother : ∀ g ≠ f, n g = (n + Pi.single f 1 : Fin nfile → Nat) g := by
    intro g hg
    simp [hg]
  refine .get ?_
  dsimp only
  rw [if_neg (by omega)]
  split
  case isTrue hmore =>
    refine h.put hother ?_ (fun h0 => ?_) fun p w => Iff.rfl
    · simp [href]
    · omega
  case isFalse hlast =>
    have hnf : n f = 0 := by omega
    refine .modify ?_
    split
    case isTrue hpipe => exact pipeclose_finishes h ⟨hpipe, rfl, rfl⟩ hother hnf rfl rfl
    case isFalse hpipe =>
      refine h.put hother (by simp [hnf]) (fun _ => rfl) fun p w => ?_
      exact iff_of_false (File.not_isEnd (x := { fs.file f with ref := 0, type := .fdNone }) (nomatch ·) p w)
        (File.not_isEnd hpipe p w)

theorem isEnd_update {file : Fin nfile → File} {f0 f1 : Fin nfile} {x0 x1 : File} {p : Page} (hne : f1 ≠ f0)
    (ht0 : (file f0).type = .fdNone) (ht1 : (file f1).type = .fdNone)
    (he0 : ∀ q w, x0.IsEnd q w ↔ q = p ∧ w = false) (he1 : ∀ q w, x1.IsEnd q w ↔ q = p ∧ w = true)
    (g : Fin nfile) (q : Page) (w : Bool) :
    (update (update file f0 x0) f1 x1 g).IsEnd q w ↔
      (file g).IsEnd q w ∨ (q = p ∧ g = if w then f1 else f0) := by
  have hold : ∀ g, (file g).type = .fdNone → ¬ (file g).IsEnd q w := fun g hg he => he.ne_none hg
  by_cases hg1 : g = f1
  · subst hg1
    rw [update_self, he1, or_iff_right (hold g ht1)]
    cases w with
    | false => simp [hne]
    | true => simp
  · rw [update_of_ne hg1]
    by_cases hg0 : g = f0
    · subst hg0
      rw [update_self, he0, or_iff_right (hold g ht0)]
      cases w with
      | false => simp
      | true => simp [hg1]
    · rw [update_of_ne hg0]
      cases w with
      | false => simp [hg0]
      | true => simp [hg1]

theorem Books.newPipe {f0 f1 : Fin nfile} {x0 x1 : File} {p : Page} (h : Books n P fs) (h0 : n f0 ≠ 0) (h1 : n f1 ≠ 0)
    (hne : f1 ≠ f0) (ht0 : (fs.file f0).type = .fdNone) (ht1 : (fs.file f1).type = .fdNone)
    (hp : p ∉ fs.pipes.map Pipe.page) (hr0 : x0.ref = (fs.file f0).ref) (hr1 : x1.ref = (fs.file f1).ref)
    (he0 : ∀ q w, x0.IsEnd q w ↔ q = p ∧ w = false) (he1 : ∀ q w, x1.IsEnd q w ↔ q = p ∧ w = true) :
    Books n ({p} + P) ⟨fs.kmem, update (update fs.file f0 x0) f1 x1, ⟨p, true, true⟩ :: fs.pipes⟩ := by
  have hfile := isEnd_update hne ht0 ht1 he0 he1
  have hnone : ∀ g w, ¬ (fs.file g).IsEnd p w := by
    intro g w hg
    obtain ⟨q, hq, hpage, -⟩ := (h.ends p w).mpr ⟨g, hg⟩
    exact hp (List.mem_map.mpr ⟨q, hq, hpage⟩)
  refine ⟨fun g => ?_, fun g hg => ?_, List.nodup_cons.mpr ⟨hp, h.distinct⟩, fun q w => ?_, fun g g' q w hg hg' => ?_,
    List.forall_mem_cons.mpr ⟨⟨true, rfl⟩, h.used⟩, ?_⟩
  · rw [← h.ref g]
    by_cases hg1 : g = f1
    · subst hg1
      simp [hr1]
    · by_cases hg0 : g = f0
      · subst hg0
        simp [hg1, hr0]
      · simp [hg0, hg1]
  · have hg0 : g ≠ f0 := by
      rintro rfl
      exact h0 hg
    have hg1 : g ≠ f1 := by
      rintro rfl
      exact h1 hg
    simpa [hg0, hg1] using h.idle g hg
  · simp only [hfile]
    constructor
    · rintro ⟨r, hr, rfl, hopen⟩
      rcases List.mem_cons.mp hr with rfl | hr
      · exact ⟨_, .inr ⟨rfl, rfl⟩⟩
      · obtain ⟨g, hg⟩ := (h.ends r.page w).mp ⟨r, hr, rfl, hopen⟩
        exact ⟨g, .inl hg⟩
    · rintro ⟨g, hg | ⟨rfl, -⟩⟩
      · obtain ⟨r, hr, hpage, hopen⟩ := (h.ends q w).mpr ⟨g, hg⟩
        exact ⟨r, List.mem_cons_of_mem _ hr, hpage, hopen⟩
      · exact ⟨_, List.mem_cons_self, rfl, by cases w <;> rfl⟩
  · rcases (hfile g q w).mp hg with hend | ⟨rfl, heq⟩
    · rcases (hfile g' q w).mp hg' with hend' | ⟨rfl, -⟩
      · exact h.alone g g' q w hend hend'
      · exact absurd hend (hnone g w)
    · rcases (hfile g' q w).mp hg' with hend' | ⟨-, heq'⟩
      · exact absurd hend' (hnone g' w)
      · rw [heq, heq']
  · rw [← h.pages, filePages, filePages, List.map_cons, ← Multiset.cons_coe, ← Multiset.singleton_add,
      add_left_comm]

theorem setPipe_finishes (h : Books n P fs) (h0 : n f0 ≠ 0) (h1 : n f1 ≠ 0)
    (hne : f1 ≠ f0) (ht0 : (fs.file f0).type = .fdNone) (ht1 : (fs.file f1).type = .fdNone)
    (hp : p ∉ fs.pipes.map Pipe.page) :
    Finishes Allowed (setPipe f0 f1 p) fs fun _ t => Books n ({p} + P) t := by
  refine .modify (.get (.modify (.get ?_)))
  dsimp only
  rw [update_of_ne hne]
  refine h.newPipe h0 h1 hne ht0 ht1 hp rfl rfl (fun q w => ?_) fun q w => ?_
  · simp only [File.IsEnd, true_and]
    exact and_congr eq_comm eq_comm
  · simp only [File.IsEnd, true_and]
    exact and_congr eq_comm eq_comm

theorem pipealloc_finishes (h : Books n P fs) (hP : P.Nodup) :
    Finishes Allowed (pipealloc L) fs fun r t => match r with
      | none => Books n P t
      | some (f0, f1) => Books (n + Pi.single f0 1 + Pi.single f1 1) P t := by
  refine (filealloc_finishes h).bind fun r t ht => ?_
  cases r with
  | none => exact ht
  | some f0 =>
    obtain ⟨-, hbooks, htype0, -⟩ := ht
    refine (filealloc_finishes hbooks).bind fun r t₁ ht₁ => ?_
    cases r with
    | none => exact (fileclose_finishes ht₁).bind fun _ t₂ ht₂ => ht₂
    | some f1 =>
      obtain ⟨hzero, hbooks₁, htype1, hsame⟩ := ht₁
      have hne : f1 ≠ f0 := by
        rintro rfl
        simp at hzero
      refine .bind (onKmem_finishes (Q := fun r t₂ => t₂.file = t₁.file ∧
        ∃ P', P' + (r.elim 0 ({·}) + 0) = P + 0 ∧ Books _ P' t₂) fun r k hk =>
          ⟨rfl, hbooks₁.kmem (kalloc_balances 0 _ _ _ hk)⟩) fun r t₂ ⟨hfile, P', hP', hbooks₂⟩ => ?_
      rw [add_zero, add_zero] at hP'
      cases r with
      | none =>
        rw [Option.elim_none, add_zero] at hP'
        subst hP'
        rw [add_right_comm] at hbooks₂
        refine (fileclose_finishes hbooks₂).bind fun _ t₃ ht₃ => ?_
        exact (fileclose_finishes ht₃).bind fun _ t₄ ht₄ => ht₄
      | some p =>
        have hP'' : P = {p} + P' := by
          rw [← hP', add_comm]
          rfl
        refine .bind (setPipe_finishes hbooks₂ ?_ ?_ hne ?_ ?_ ?_) fun _ t₃ ht₃ => ?_
        · simp
        · simp
        · rw [hfile, hsame f0 hne.symm, htype0]
        · rw [hfile, htype1]
        · intro hmem
          rw [hP'', Multiset.singleton_add, Multiset.nodup_cons] at hP
          apply hP.1
          rw [← hbooks₂.pages]
          exact Multiset.mem_add.mpr (.inr hmem)
        · rw [hP'']
          exact ht₃

end Xv6.Vm
