import Xv6.Shell.Accept

namespace Xv6.Shell

open Function Lib Prog

def Extends (h h' : List Node) : Prop := ∀ (k : Nat) (n : Node), h[k]? = some n → h'[k]? = some n

theorem Extends.refl (h : List Node) : Extends h h := fun _ _ hk => hk

theorem Extends.trans (h₁ : Extends h h') (h₂ : Extends h' h'') : Extends h h'' :=
  fun k n hk => h₂ k n (h₁ k n hk)

theorem extends_append (h l : List Node) : Extends h (h ++ l) := fun k n hk => by
  rw [List.getElem?_append_left (List.getElem?_eq_some_iff.mp hk).1]
  exact hk

structure Args (S : Nat → Nat → Text → Prop) (argv eargv : Fin 10 → Option Nat) (ws : List Text) : Prop where
  word : ∀ (i : Fin 10) (w : Text), ws[i.val]? = some w → ∃ q e, argv i = some q ∧ eargv i = some e ∧ S q e w
  null : ∀ i : Fin 10, ws.length ≤ i → argv i = none

/-- The tree at a pointer, its strings read by `S`.  A node comes after its children. -/
inductive Built (S : Nat → Nat → Text → Prop) (heap : List Node) : Nat → Cmd → Prop
  | exec {p : Nat} {argv eargv : Fin 10 → Option Nat} {ws : List Text} (hp : heap[p]? = some (.exec argv eargv))
    (hargs : Args S argv eargv ws) : Built S heap p (.exec ws)
  | redir {p sub q e mode fd : Nat} {c : Cmd} {w : Text} (hp : heap[p]? = some (.redir sub q e mode fd))
    (hlt : sub < p) (hword : S q e w) (hsub : Built S heap sub c) : Built S heap p (.redir c w mode fd)
  | pipe {p l r : Nat} {c d : Cmd} (hp : heap[p]? = some (.pipe l r)) (hl : l < p) (hr : r < p)
    (hleft : Built S heap l c) (hright : Built S heap r d) : Built S heap p (.pipe c d)
  | list {p l r : Nat} {c d : Cmd} (hp : heap[p]? = some (.list l r)) (hl : l < p) (hr : r < p)
    (hleft : Built S heap l c) (hright : Built S heap r d) : Built S heap p (.list c d)
  | back {p sub : Nat} {c : Cmd} (hp : heap[p]? = some (.back sub)) (hlt : sub < p) (hsub : Built S heap sub c) :
    Built S heap p (.back c)

def Chain (S : Nat → Nat → Text → Prop) (heap : List Node) : Nat → List Redir → Nat → Prop
  | cmd, [], p => p = cmd
  | cmd, r :: rs, p => ∃ mid q e, heap[mid]? = some (.redir cmd q e r.op.mode r.op.fd) ∧ cmd < mid ∧ S q e r.file ∧
      Chain S heap mid rs p

section Trees

theorem Built.lt (h : Built S heap p c) : p < heap.length := by
  cases h <;> exact (List.getElem?_eq_some_iff.mp ‹_›).1

theorem Built.extend (h : Built S heap p c) (hext : Extends heap heap') : Built S heap' p c := by
  induction h with
  | exec hp hargs => exact .exec (hext _ _ hp) hargs
  | redir hp hlt hword _ ih => exact .redir (hext _ _ hp) hlt hword ih
  | pipe hp hl hr _ _ ihl ihr => exact .pipe (hext _ _ hp) hl hr ihl ihr
  | list hp hl hr _ _ ihl ihr => exact .list (hext _ _ hp) hl hr ihl ihr
  | back hp hlt _ ih => exact .back (hext _ _ hp) hlt ih

theorem Chain.built (h : Chain S heap cmd rs p) (hc : Built S heap cmd c) : Built S heap p (c.wrap rs) := by
  induction rs generalizing cmd c with
  | nil =>
    cases h
    exact hc
  | cons r rs ih =>
    obtain ⟨mid, q, e, hmid, hlt, hword, h⟩ := h
    exact ih h (.redir hmid hlt hword hc)

theorem Chain.append (h : Chain S heap cmd rs mid) (h' : Chain S heap mid rs' p) :
    Chain S heap cmd (rs ++ rs') p := by
  induction rs generalizing cmd with
  | nil =>
    cases h
    exact h'
  | cons r rs ih =>
    obtain ⟨mid, q, e, hmid, hlt, hword, h⟩ := h
    exact ⟨mid, q, e, hmid, hlt, hword, ih h⟩

theorem Chain.mono (h : Chain S heap cmd rs p)
    (hredir : ∀ k sub q e mode fd : Nat, heap[k]? = some (.redir sub q e mode fd) →
      heap'[k]? = some (.redir sub q e mode fd)) : Chain S heap' cmd rs p := by
  induction rs generalizing cmd with
  | nil => exact h
  | cons r rs ih =>
    obtain ⟨mid, q, e, hmid, hlt, hword, h⟩ := h
    exact ⟨mid, q, e, hredir _ _ _ _ _ _ hmid, hlt, hword, ih h⟩

end Trees

def follow : Part → List Op
  | .line => [.rparen]
  | .pipe => [.rparen, .amp, .semi]
  | .exec => [.rparen, .amp, .semi, .bar]

def Ends (x : Part) : List Token → Prop
  | [] => True
  | .op o :: _ => o ∈ follow x
  | .word _ :: _ => False

theorem Ends.looks (h : Ends x rest)
    (htoks : ∀ o ∈ follow x, o.first ∉ toks) : looks toks rest = false := by
  cases rest with
  | nil => rfl
  | cons t rest =>
    cases t with
    | op o => exact decide_eq_false (htoks o h)
    | word w => exact h.elim

theorem Ends.mono (h : Ends x rest) (hxy : ∀ o ∈ follow x, o ∈ follow y) :
    Ends y rest := by
  cases rest with
  | nil => trivial
  | cons t rest =>
    cases t with
    | op o => exact hxy o h
    | word w => exact h

variable {line : List Byte} {st : State} {rest : List Token}

def Builds (line : List Byte) (c : Cmd) (rest : List Token) (m : M Nat) (st : State) : Prop :=
  Finishes (fun _ => False) m st fun p st' =>
    At line st' rest ∧ Extends st.heap st'.heap ∧ Built (IsWord line) st'.heap p c

theorem length_redirsYield (rs : List Redir) : (redirsYield rs).length = 2 * rs.length := by
  induction rs with
  | nil => rfl
  | cons r rs ih =>
    change (redirsYield rs).length + 2 = 2 * (rs.length + 1)
    omega

theorem length_argsYield (args : List (Text × List Redir)) : args.length ≤ (argsYield args).length := by
  induction args with
  | nil => exact le_rfl
  | cons a args ih =>
    change args.length + 1 ≤ (Token.word a.1 :: redirsYield a.2 ++ argsYield args).length
    rw [List.length_append, List.length_cons]
    omega

section Loops

variable (hline : 0 ∉ line)
include hline

theorem redirsLoop_complete (rs : List Redir) (fuel cmd : Nat) (h : At line st (redirsYield rs ++ rest))
    (hrest : looks [60, 62] rest = false) (hfuel : rs.length < fuel) (hcmd : cmd < st.heap.length) :
    Finishes (fun _ => False) (redirsLoop line fuel cmd) st fun p st' =>
      At line st' rest ∧ Extends st.heap st'.heap ∧ Chain (IsWord line) st'.heap cmd rs p := by
  induction rs generalizing fuel cmd st with
  | nil =>
    obtain ⟨fuel, rfl⟩ : ∃ n, fuel = n + 1 := ⟨fuel - 1, by omega⟩
    refine peek_bind hline h (by decide) fun st₁ h₁ heap₁ _ => ?_
    rw [show looks [60, 62] (redirsYield [] ++ rest) = false from hrest]
    exact .pure ⟨h₁, heap₁ ▸ Extends.refl _, rfl⟩
  | cons r rs ih =>
    obtain ⟨fuel, rfl⟩ : ∃ n, fuel = n + 1 := ⟨fuel - 1, by omega⟩
    refine peek_bind hline h (by decide) fun st₁ h₁ heap₁ _ => ?_
    have hlooks : looks [60, 62] (redirsYield (r :: rs) ++ rest) = true := by
      obtain ⟨op, file⟩ := r
      cases op <;> rfl
    rw [hlooks]
    refine gettoken_bind hline h₁ fun _ st₂ _ hgot h₂ heap₂ => ?_
    cases hgot with
    | op =>
      refine gettoken_bind hline h₂ fun _ st₃ _ hgot h₃ heap₃ => ?_
      cases hgot with
      | @word _ _ q e hword =>
        dsimp only
        rw [if_neg (by decide), addRedir_eq]
        have hheap : st₃.heap = st.heap := heap₃.trans (heap₂.trans heap₁)
        have hlt : st₃.heap.length < (st₃.heap ++ [Node.redir cmd q e r.op.mode r.op.fd]).length := by simp
        refine malloc_bind ((ih fuel st₃.heap.length (h₃.alloc _) (Nat.lt_of_succ_lt_succ hfuel) hlt).mono ?_)
        rintro p st' ⟨h', hext, hchain⟩
        rw [hheap] at hext
        refine ⟨h', (extends_append _ _).trans hext, st₃.heap.length, q, e, ?_, ?_, hword, hchain⟩
        · rw [hheap]
          exact hext _ _ List.getElem?_concat_length
        · rw [hheap]
          exact hcmd

theorem parseredirs_complete (rs : List Redir) (cmd : Nat) (h : At line st (redirsYield rs ++ rest))
    (hrest : looks [60, 62] rest = false) (hcmd : cmd < st.heap.length) :
    Finishes (fun _ => False) (parseredirs line cmd) st fun p st' =>
      At line st' rest ∧ Extends st.heap st'.heap ∧ Chain (IsWord line) st'.heap cmd rs p := by
  have hlen := h.length_le
  rw [List.length_append, length_redirsYield] at hlen
  exact redirsLoop_complete hline rs _ cmd h hrest (by omega) hcmd

theorem backLoop_complete (n fuel cmd : Nat) (h : At line st (List.replicate n (Token.op .amp) ++ rest))
    (hrest : looks [38] rest = false) (hfuel : n < fuel) (hcmd : Built (IsWord line) st.heap cmd c) :
    Builds line (c.backs n) rest (backLoop line fuel cmd) st := by
  obtain ⟨fuel, rfl⟩ : ∃ m, fuel = m + 1 := ⟨fuel - 1, by omega⟩
  induction n generalizing fuel cmd c st with
  | zero =>
    refine peek_bind hline h (by decide) fun st₁ h₁ heap₁ _ => ?_
    rw [show looks [38] (List.replicate 0 (.op .amp) ++ rest) = false from hrest]
    exact .pure ⟨h₁, heap₁ ▸ Extends.refl _, heap₁ ▸ hcmd⟩
  | succ n ih =>
    obtain ⟨fuel, rfl⟩ : ∃ m, fuel = m + 1 := ⟨fuel - 1, by omega⟩
    refine peek_bind hline h (by decide) fun st₁ h₁ heap₁ _ => ?_
    rw [show looks [38] (List.replicate (n + 1) (.op .amp) ++ rest) = true from rfl]
    refine gettoken_bind hline h₁ fun _ st₂ _ hgot h₂ heap₂ => ?_
    cases hgot with
    | op =>
      have hheap : st₂.heap = st.heap := heap₂.trans heap₁
      have hback : Built (IsWord line) (st₂.heap ++ [.back cmd]) st₂.heap.length (.back c) := by
        rw [hheap]
        exact .back List.getElem?_concat_length hcmd.lt (hcmd.extend (extends_append _ _))
      refine malloc_bind ((ih st₂.heap.length (h₂.alloc _) hback fuel (by omega)).mono ?_)
      rintro p st' ⟨h', hext, hbuilt⟩
      rw [hheap] at hext
      exact ⟨h', (extends_append _ _).trans hext, hbuilt⟩

end Loops

structure Filling (line : List Byte) (h₀ heap : List Node) (cmd ret : Nat) (ws : List Text) (rs : List Redir) :
    Prop where
  old : Extends h₀ heap
  new : h₀.length ≤ cmd
  node : ∃ argv eargv, heap[cmd]? = some (.exec argv eargv) ∧ Args (IsWord line) argv eargv ws
  chain : Chain (IsWord line) heap cmd rs ret

namespace Filling

theorem built (h : Filling line h₀ heap cmd ret ws rs) : Built (IsWord line) heap ret ((Cmd.exec ws).wrap rs) := by
  obtain ⟨argv, eargv, hnode, hargs⟩ := h.node
  exact h.chain.built (.exec hnode hargs)

theorem lt (h : Filling line h₀ heap cmd ret ws rs) : ret < heap.length := h.built.lt

theorem redirs (h : Filling line h₀ heap cmd ret ws rs) (hext : Extends heap heap')
    (hchain : Chain (IsWord line) heap' ret rs' p) : Filling line h₀ heap' cmd p ws (rs ++ rs') := by
  obtain ⟨argv, eargv, hnode, hargs⟩ := h.node
  exact ⟨h.old.trans hext, h.new, ⟨argv, eargv, hext _ _ hnode, hargs⟩,
    (h.chain.mono fun _ _ _ _ _ _ hk => hext _ _ hk).append hchain⟩

theorem setArg (h : Filling line h₀ heap cmd ret ws rs) (argc : Fin 10) (q e : Option Nat)
    (hargs : ∀ argv eargv, Args (IsWord line) argv eargv ws →
      Args (IsWord line) (update argv argc q) (update eargv argc e) ws') :
    Filling line h₀ (heap.modify cmd (Node.setArg argc q e)) cmd ret ws' rs := by
  obtain ⟨argv, eargv, hnode, hws⟩ := h.node
  refine ⟨fun k n hk => ?_, h.new, ⟨_, _, ?_, hargs argv eargv hws⟩, h.chain.mono fun k sub q' e' mode fd hk => ?_⟩
  · have hne : cmd ≠ k := by
      have hlt := (List.getElem?_eq_some_iff.mp hk).1
      have hnew := h.new
      omega
    rw [List.getElem?_modify_ne _ _ hne]
    exact h.old k n hk
  · rw [List.getElem?_modify_eq, hnode]
    rfl
  · have hne : cmd ≠ k := by
      rintro rfl
      cases hnode.symm.trans hk
    rw [List.getElem?_modify_ne _ _ hne]
    exact hk

end Filling

theorem args_word
    (h : Args (IsWord line) argv eargv ws) (hargc : argc.val = ws.length) (hword : IsWord line q e w) :
    Args (IsWord line) (update argv argc (some q)) (update eargv argc (some e)) (ws ++ [w]) := by
  refine ⟨fun i v hv => ?_, fun i hi => ?_⟩
  · by_cases hi : i = argc
    · subst hi
      rw [hargc, List.getElem?_concat_length] at hv
      cases hv
      exact ⟨q, e, update_self .., update_self .., hword⟩
    · have hne : i.val ≠ ws.length := fun heq => hi (Fin.ext (heq.trans hargc.symm))
      have hlt := (List.getElem?_eq_some_iff.mp hv).1
      rw [List.length_append, List.length_singleton] at hlt
      rw [List.getElem?_append_left (by omega)] at hv
      rw [update_of_ne hi, update_of_ne hi]
      exact h.word i v hv
  · rw [List.length_append, List.length_singleton] at hi
    rw [update_of_ne (by rintro rfl; omega)]
    exact h.null i (by omega)

theorem args_null
    (h : Args (IsWord line) argv eargv ws) (hargc : argc.val = ws.length) :
    Args (IsWord line) (update argv argc none) (update eargv argc none) ws := by
  refine ⟨fun i v hv => ?_, fun i hi => ?_⟩
  · have hlt := (List.getElem?_eq_some_iff.mp hv).1
    have hne : i ≠ argc := by rintro rfl; omega
    rw [update_of_ne hne, update_of_ne hne]
    exact h.word i v hv
  · by_cases hi' : i = argc
    · rw [hi', update_self]
    · rw [update_of_ne hi']
      exact h.null i hi

theorem looks_args (args : List (Text × List Redir)) (hrest : Ends .exec rest) :
    looks [60, 62] (argsYield args ++ rest) = false := by
  cases args with
  | nil => exact hrest.looks (by decide)
  | cons a args => rfl

theorem looks_exec (rs : List Redir) (args : List (Text × List Redir)) (hrest : Ends .exec rest) :
    looks [40] (redirsYield rs ++ (argsYield args ++ rest)) = false := by
  cases rs with
  | nil =>
    cases args with
    | nil => exact hrest.looks (by decide)
    | cons a args => rfl
  | cons r rs =>
    obtain ⟨op, file⟩ := r
    cases op <;> rfl

section Complete

variable (hline : 0 ∉ line)
include hline

theorem argsLoop_complete (args : List (Text × List Redir)) (fuel cmd ret : Nat) (argc : Fin 10)
     (h : At line st (argsYield args ++ rest)) (hrest : Ends .exec rest)
    (hfuel : args.length < fuel) (hargc : argc.val = ws.length) (hlen : argc + args.length < 10)
    (hfill : Filling line h₀ st.heap cmd ret ws rs) :
    Finishes (fun _ => False) (argsLoop line fuel cmd ret argc) st fun p st' => At line st' rest ∧
      Filling line h₀ st'.heap cmd p (ws ++ args.map Prod.fst) (rs ++ args.flatMap Prod.snd) := by
  induction args generalizing fuel ret argc st ws rs with
  | nil =>
    obtain ⟨fuel, rfl⟩ : ∃ m, fuel = m + 1 := ⟨fuel - 1, by omega⟩
    simp only [List.map_nil, List.flatMap_nil, List.append_nil]
    have hnull := fun heap (hheap : heap = st.heap) =>
      (hheap ▸ hfill).setArg argc none none fun _ _ hargs => args_null hargs hargc
    refine peek_bind hline h (by decide) fun st₁ h₁ heap₁ _ => ?_
    cases rest with
    | nil =>
      refine gettoken_bind hline h₁ fun _ st₂ _ hgot h₂ heap₂ => ?_
      cases hgot with
      | done => exact ⟨h₂.alloc _, hnull st₂.heap (heap₂.trans heap₁)⟩
    | cons t rest =>
      cases t with
      | word w => exact hrest.elim
      | op o =>
        have hmem : o ∈ follow .exec := hrest
        have hlooks : looks [124, 41, 38, 59] (.op o :: rest) = true := by
          cases o <;> first | rfl | exact absurd hmem (by decide)
        rw [show looks [124, 41, 38, 59] (argsYield [] ++ .op o :: rest) = true from hlooks]
        exact ⟨h₁.alloc _, hnull st₁.heap heap₁⟩
  | cons a args ih =>
    obtain ⟨w, rs'⟩ := a
    obtain ⟨fuel, rfl⟩ : ∃ m, fuel = m + 1 := ⟨fuel - 1, by omega⟩
    rw [List.length_cons] at hfuel hlen
    have hyield : argsYield ((w, rs') :: args) ++ rest = .word w :: (redirsYield rs' ++ (argsYield args ++ rest)) := by
      simp [argsYield]
    rw [hyield] at h
    refine peek_bind hline h (by decide) fun st₁ h₁ heap₁ _ => ?_
    refine gettoken_bind hline h₁ fun _ st₂ _ hgot h₂ heap₂ => ?_
    cases hgot with
    | @word _ _ q e hword =>
      dsimp only
      rw [if_neg (by decide), if_neg (by decide)]
      refine .modify ?_
      rw [dif_pos (by omega)]
      have hfill : Filling line h₀ (st₂.heap.modify cmd (Node.setArg argc (some q) (some e))) cmd ret (ws ++ [w]) rs :=
        (heap₂.trans heap₁ ▸ hfill).setArg argc (some q) (some e) fun _ _ hargs => args_word hargs hargc hword
      refine (parseredirs_complete hline rs' ret (h₂.alloc _) (looks_args args hrest) hfill.lt).bind ?_
      rintro ret' st₃ ⟨h₃, hext, hchain⟩
      have hargc' : argc.val + 1 = (ws ++ [w]).length := by rw [List.length_append, hargc]; rfl
      refine (ih fuel ret' ⟨argc + 1, by omega⟩ h₃ (by omega) hargc' (by dsimp only; omega)
        (hfill.redirs hext hchain)).mono ?_
      rintro p st' ⟨h', hfill'⟩
      simp only [List.append_assoc] at hfill'
      exact ⟨h', hfill'⟩

theorem line_complete {p : Deriv .pipe} {n fuel : Nat}
    (ihp : ∀ st rest, At line st (p.yield ++ rest) → 4 * (p.yield ++ rest).length + 3 ≤ fuel → Ends .pipe rest →
      Builds line p.denote rest (parsepipe line fuel) st)
    (h : At line st (p.yield ++ (List.replicate n (Token.op .amp) ++ rest)))
    (hfuel : 4 * (p.yield ++ (List.replicate n (Token.op .amp) ++ rest)).length + 3 ≤ fuel)
    (hpipe : Ends .pipe rest) (hamp : looks [38] rest = false) {k : Nat → M Nat} {R : Nat → State → Prop}
    (hk : ∀ cmd st', At line st' rest → Extends st.heap st'.heap →
      Built (IsWord line) st'.heap cmd (p.denote.backs n) → Finishes (fun _ => False) (k cmd) st' R) :
    Finishes (fun _ => False) (parsepipe line fuel >>= fun cmd => backLoop line (line.length + 1) cmd >>= k) st R := by
  have hends : Ends .pipe (List.replicate n (Token.op .amp) ++ rest) := by
    cases n with
    | zero => exact hpipe
    | succ n => exact (by decide : Op.amp ∈ follow .pipe)
  refine (ihp st _ h hfuel hends).bind ?_
  rintro cmd st₁ ⟨h₁, hext₁, hbuilt₁⟩
  have hlen := h₁.length_le
  rw [List.length_append, List.length_replicate] at hlen
  refine (backLoop_complete hline n _ cmd h₁ hamp (by omega) hbuilt₁).bind ?_
  rintro cmd st₂ ⟨h₂, hext₂, hbuilt₂⟩
  exact hk cmd st₂ h₂ (hext₁.trans hext₂) hbuilt₂

theorem builds (d : Deriv x) (hd : d.Short) (fuel : Nat) (h : At line st (d.yield ++ rest))
    (hfuel : 4 * (d.yield ++ rest).length + depth x ≤ fuel) (hrest : Ends x rest) :
    Builds line d.denote rest (run line x fuel) st := by
  induction d generalizing fuel st rest with
  | line p n ihp =>
    obtain ⟨fuel, rfl⟩ : ∃ m, fuel = m + 1 := ⟨fuel - 1, by simp only [depth] at hfuel; omega⟩
    simp only [Deriv.yield, List.append_assoc] at h hfuel
    change Builds line _ rest (parseline line (fuel + 1)) st
    unfold parseline
    refine line_complete hline (fun st rest h hf hr => ihp hd fuel h hf hr) h (Nat.le_of_succ_le_succ hfuel)
      (hrest.mono (by decide)) (hrest.looks (by decide)) fun cmd st₁ h₁ hext hbuilt => ?_
    refine peek_bind hline h₁ (by decide) fun st₂ h₂ heap₂ _ => ?_
    rw [hrest.looks (by decide)]
    exact .pure ⟨h₂, heap₂ ▸ hext, heap₂ ▸ hbuilt⟩
  | lines p n l ihp ihl =>
    obtain ⟨fuel, rfl⟩ : ∃ m, fuel = m + 1 := ⟨fuel - 1, by simp only [depth] at hfuel; omega⟩
    simp only [Deriv.yield, List.append_assoc, List.cons_append] at h hfuel
    change Builds line _ rest (parseline line (fuel + 1)) st
    unfold parseline
    refine line_complete hline (fun st rest h hf hr => ihp hd.1 fuel h hf hr) h (Nat.le_of_succ_le_succ hfuel)
      (by decide : Op.semi ∈ follow .pipe) rfl fun cmd st₁ h₁ hext hbuilt => ?_
    refine peek_bind hline h₁ (by decide) fun st₂ h₂ heap₂ _ => ?_
    rw [show looks [59] (.op .semi :: (l.yield ++ rest)) = true from rfl]
    refine gettoken_bind hline h₂ fun _ st₃ _ hgot h₃ heap₃ => ?_
    cases hgot with
    | op =>
      have hheap : st₃.heap = st₁.heap := heap₃.trans heap₂
      simp only [List.length_append, List.length_cons, depth] at hfuel
      refine (ihl hd.2 fuel h₃ (by simp only [List.length_append, depth]; omega) hrest).bind ?_
      rintro right st₄ ⟨h₄, hext₄, hright⟩
      rw [hheap] at hext₄
      have hnew := extends_append st₄.heap [.list cmd right]
      have hleft := hbuilt.extend hext₄
      refine ⟨h₄.alloc _, (hext.trans hext₄).trans hnew, ?_⟩
      exact .list List.getElem?_concat_length hleft.lt hright.lt (hleft.extend hnew) (hright.extend hnew)
  | pipe e ihe =>
    obtain ⟨fuel, rfl⟩ : ∃ m, fuel = m + 1 := ⟨fuel - 1, by simp only [depth] at hfuel; omega⟩
    change Builds line _ rest (parsepipe line (fuel + 1)) st
    unfold parsepipe
    refine (ihe hd fuel h (Nat.le_of_succ_le_succ hfuel) (hrest.mono (by decide))).bind ?_
    rintro cmd st₁ ⟨h₁, hext, hbuilt⟩
    refine peek_bind hline h₁ (by decide) fun st₂ h₂ heap₂ _ => ?_
    rw [hrest.looks (by decide)]
    exact .pure ⟨h₂, heap₂ ▸ hext, heap₂ ▸ hbuilt⟩
  | pipes e p ihe ihp =>
    obtain ⟨fuel, rfl⟩ : ∃ m, fuel = m + 1 := ⟨fuel - 1, by simp only [depth] at hfuel; omega⟩
    simp only [Deriv.yield, List.append_assoc, List.cons_append] at h hfuel
    change Builds line _ rest (parsepipe line (fuel + 1)) st
    unfold parsepipe
    refine (ihe hd.1 fuel h (Nat.le_of_succ_le_succ hfuel) (by decide : Op.bar ∈ follow .exec)).bind ?_
    rintro cmd st₁ ⟨h₁, hext, hbuilt⟩
    refine peek_bind hline h₁ (by decide) fun st₂ h₂ heap₂ _ => ?_
    rw [show looks [124] (.op .bar :: (p.yield ++ rest)) = true from rfl]
    refine gettoken_bind hline h₂ fun _ st₃ _ hgot h₃ heap₃ => ?_
    cases hgot with
    | op =>
      have hheap : st₃.heap = st₁.heap := heap₃.trans heap₂
      simp only [List.length_append, List.length_cons, depth] at hfuel
      refine (ihp hd.2 fuel h₃ (by simp only [List.length_append, depth]; omega) hrest).bind ?_
      rintro right st₄ ⟨h₄, hext₄, hright⟩
      rw [hheap] at hext₄
      have hnew := extends_append st₄.heap [.pipe cmd right]
      have hleft := hbuilt.extend hext₄
      refine ⟨h₄.alloc _, (hext.trans hext₄).trans hnew, ?_⟩
      exact .pipe List.getElem?_concat_length hleft.lt hright.lt (hleft.extend hnew) (hright.extend hnew)
  | block l rs ihl =>
    obtain ⟨fuel, rfl⟩ : ∃ m, fuel = m + 2 := ⟨fuel - 2, by simp only [depth] at hfuel; omega⟩
    simp only [Deriv.yield, List.append_assoc, List.cons_append] at h hfuel
    change Builds line _ rest (parseexec line (fuel + 2)) st
    unfold parseexec
    refine peek_bind hline h (by decide) fun st₁ h₁ heap₁ _ => ?_
    rw [show looks [40] (.op .lparen :: (l.yield ++ (.op .rparen :: (redirsYield rs ++ rest)))) = true from rfl]
    unfold parseblock
    refine peek_bind hline h₁ (by decide) fun st₂ h₂ heap₂ _ => ?_
    rw [show looks [40] (.op .lparen :: (l.yield ++ (.op .rparen :: (redirsYield rs ++ rest)))) = true from rfl]
    refine gettoken_bind hline h₂ fun _ st₃ _ hgot h₃ heap₃ => ?_
    cases hgot with
    | op =>
      simp only [List.length_append, List.length_cons, depth] at hfuel
      refine (ihl hd fuel h₃ (by simp only [List.length_append, List.length_cons, depth]; omega)
        (by decide : Op.rparen ∈ follow .line)).bind ?_
      rintro cmd st₄ ⟨h₄, hext₄, hbuilt⟩
      rw [heap₃, heap₂, heap₁] at hext₄
      refine peek_bind hline h₄ (by decide) fun st₅ h₅ heap₅ _ => ?_
      rw [show looks [41] (.op .rparen :: (redirsYield rs ++ rest)) = true from rfl]
      refine gettoken_bind hline h₅ fun _ st₆ _ hgot h₆ heap₆ => ?_
      cases hgot with
      | op =>
        rw [← heap₅, ← heap₆] at hext₄ hbuilt
        refine (parseredirs_complete hline rs cmd h₆ (hrest.looks (by decide)) hbuilt.lt).mono ?_
        rintro p st' ⟨h', hext', hchain⟩
        exact ⟨h', hext₄.trans hext', hchain.built (hbuilt.extend hext')⟩
  | exec rs args =>
    obtain ⟨fuel, rfl⟩ : ∃ m, fuel = m + 1 := ⟨fuel - 1, by simp only [depth] at hfuel; omega⟩
    simp only [Deriv.yield, List.append_assoc] at h
    change Builds line _ rest (parseexec line (fuel + 1)) st
    unfold parseexec
    refine peek_bind hline h (by decide) fun st₁ h₁ heap₁ _ => ?_
    rw [looks_exec rs args hrest]
    have hinit : Filling line st.heap (st₁.heap ++ [.exec (fun _ => none) fun _ => none]) st₁.heap.length
        st₁.heap.length [] [] := by
      rw [heap₁]
      exact ⟨extends_append _ _, le_rfl, ⟨_, _, List.getElem?_concat_length, (by rintro k a ⟨⟩), fun _ _ => rfl⟩, rfl⟩
    refine malloc_bind ((parseredirs_complete hline rs st₁.heap.length (h₁.alloc _) (looks_args args hrest)
      hinit.lt).bind ?_)
    rintro ret st₂ ⟨h₂, hext₂, hchain₂⟩
    have hlen := h₂.length_le
    have hargs := length_argsYield args
    rw [List.length_append] at hlen
    refine (argsLoop_complete hline args _ _ ret 0 h₂ hrest (by omega) rfl (by simpa [Deriv.Short] using hd)
      (hinit.redirs hext₂ hchain₂)).mono ?_
    rintro p st' ⟨h', hfill⟩
    exact ⟨h', hfill.old, hfill.built⟩

end Complete

end Xv6.Shell
