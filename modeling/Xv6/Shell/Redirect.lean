import Xv6.Shell.Strings

namespace Xv6.Shell

open Function

structure OpenFile where
  file : Text
  mode : Nat
  deriving DecidableEq

abbrev Fds := Nat → Option OpenFile

def openFile (opens : Text → Nat → Bool) (file : Text) (mode : Nat) (fds : Fds) : Option Fds :=
  if opens file mode then
    ((List.range 16).find? fun fd => (fds fd).isNone).map fun fd => update fds fd (some ⟨file, mode⟩)
  else none

def closeFile (fd : Nat) (fds : Fds) : Fds := update fds fd none

inductive Outcome
  | exec (argv : Fin 10 → Option Nat) (fds : Fds)
  | openFailed (file : Text)
  | exit
  | forks
  | fuel

/-- `runcmd` until it calls `exec` or comes to a node for which it forks. -/
def runcmd (opens : Text → Nat → Bool) (heap : List Node) (buf : List Byte) : Nat → Nat → Fds → Outcome
  | 0, _, _ => .fuel
  | fuel + 1, cmd, fds =>
    match heap[cmd]? with
    | none => .exit
    | some (.exec argv _) => if argv 0 = none then .exit else .exec argv fds
    | some (.redir sub file _ mode fd) =>
      match openFile opens (cstring buf file) mode (closeFile fd fds) with
      | none => .openFailed (cstring buf file)
      | some fds => runcmd opens heap buf fuel sub fds
    | some _ => .forks

def Deriv.simple {x : Part} : Deriv x → List (List Redir × List (Text × List Redir))
  | line p _ => p.simple
  | lines p _ l => p.simple ++ l.simple
  | pipe e => e.simple
  | pipes e p => e.simple ++ p.simple
  | block l _ => l.simple
  | exec rs args => [(rs, args)]

def onFd (fd : Nat) (rs : List Redir) : List Redir := rs.filter (·.op.fd = fd)

def LastWins (rs : List Redir) (fds : Fds) : Prop :=
  ∀ fd r, (onFd fd rs).getLast? = some r → fds fd = some ⟨r.file, r.op.mode⟩

def redirected (fds : Fds) (rs : List Redir) : Fds :=
  rs.foldr (fun r fds => update fds r.op.fd (some ⟨r.file, r.op.mode⟩)) fds

theorem redirected_eq (fds : Fds) (rs : List Redir) (fd : Nat) :
    redirected fds rs fd = ((onFd fd rs).head?.map fun r => ⟨r.file, r.op.mode⟩).or (fds fd) := by
  induction rs with
  | nil => rfl
  | cons r rs ih =>
    rw [redirected, List.foldr_cons, ← redirected, onFd, List.filter_cons]
    by_cases h : r.op.fd = fd
    · simp [h]
    · simp [h, Function.update_of_ne (Ne.symm h), ih, onFd]

theorem openFile_closed {r : RedirOp} (hopens : opens file r.mode = true) (h : fds 0 ≠ none) :
    openFile opens file r.mode (closeFile r.fd fds) = some (update fds r.fd (some ⟨file, r.mode⟩)) := by
  have hfree : (List.range 16).find? (fun fd => (closeFile r.fd fds fd).isNone) = some r.fd := by
    have hrange : List.range 16 = 0 :: 1 :: List.range' 2 14 := rfl
    have hfree : (closeFile r.fd fds r.fd).isNone := by simp [closeFile]
    rw [hrange]
    cases r with
    | input => exact List.find?_cons_of_pos hfree
    | _ =>
      rw [List.find?_cons_of_neg (by simpa [closeFile, RedirOp.fd] using h)]
      exact List.find?_cons_of_pos hfree
  rw [openFile, if_pos hopens, hfree, Option.map_some, closeFile, update_idem]

section Run

theorem Args.strings (h : Args (fun q _ w => cstring buf q = w) argv eargv ws)
    (i : Fin 10) : (argv i).map (cstring buf) = ws[i.val]? := by
  cases hw : ws[i.val]? with
  | none => rw [h.null i (List.getElem?_eq_none_iff.1 hw), Option.map_none]
  | some w =>
    obtain ⟨q, e, hq, he, rfl⟩ := h.word i w hw
    rw [hq, Option.map_some]

theorem runcmd_wrap (hopens : ∀ r ∈ rs, opens r.file r.op.mode = true) (hws : ws ≠ [])
    (h : Built (fun q _ w => cstring buf q = w) heap p ((Cmd.exec ws).wrap rs)) (hfuel : p < fuel)
    (h0 : fds 0 ≠ none) : ∃ argv, runcmd opens heap buf fuel p fds = .exec argv (redirected fds rs) ∧
      ∀ i, (argv i).map (cstring buf) = ws[i.val]? := by
  obtain _ | fuel := fuel
  · omega
  induction rs using List.reverseRecOn generalizing p fuel fds with
  | nil =>
    cases h with
    | exec hp hargs =>
      refine ⟨_, ?_, hargs.strings⟩
      have hfirst := hargs.strings 0
      rw [runcmd, hp]
      refine if_neg fun hnone => ?_
      rw [hnone, Option.map_none, eq_comm, List.getElem?_eq_none_iff] at hfirst
      exact hws (List.eq_nil_of_length_eq_zero (Nat.le_zero.1 hfirst))
  | append_singleton rs r ih =>
    rw [Cmd.wrap, List.foldl_append] at h
    cases h with
    | redir hp hlt hword hsub =>
      obtain _ | fuel := fuel
      · omega
      have hopen := openFile_closed (hopens r (by simp)) h0
      have hnext : update fds r.op.fd (some ⟨r.file, r.op.mode⟩) 0 ≠ none := by
        rw [update_apply]
        split
        · exact Option.some_ne_none _
        · exact h0
      obtain ⟨argv, hrun, hstrings⟩ := ih (fun r hr => hopens r (List.mem_append_left _ hr)) hsub hnext fuel
        (by omega)
      refine ⟨argv, ?_, hstrings⟩
      rw [runcmd, hp]
      simp only [hword, hopen, hrun]
      rw [redirected, redirected, List.foldr_append]
      rfl

end Run

section Simple

theorem Built.of_wrap (h : Built S heap p (c.wrap rs)) : ∃ q, Built S heap q c := by
  induction rs generalizing c with
  | nil => exact ⟨p, h⟩
  | cons r rs ih =>
    obtain ⟨q, hq⟩ := ih h
    cases hq with
    | redir hp hlt hword hsub => exact ⟨_, hsub⟩

theorem Built.of_backs (h : Built S heap p (c.backs n)) : ∃ q, Built S heap q c := by
  induction n generalizing c with
  | zero => exact ⟨p, h⟩
  | succ n ih =>
    obtain ⟨q, hq⟩ := ih h
    cases hq with
    | back hp hlt hsub => exact ⟨_, hsub⟩

theorem Built.simple {x : Part} {d : Deriv x} (h : Built S heap p d.denote) (hc : (rs, args) ∈ d.simple) :
    ∃ q, Built S heap q (Deriv.exec rs args).denote := by
  induction d generalizing p with
  | line d n ih =>
    obtain ⟨q, hq⟩ := h.of_backs
    exact ih hq hc
  | lines d n l ihd ihl =>
    cases h with
    | list hp hl hr hleft hright =>
      obtain ⟨q, hq⟩ := hleft.of_backs
      exact (List.mem_append.1 hc).elim (ihd hq) (ihl hright)
  | pipe e ih => exact ih h hc
  | pipes e d ihe ihd =>
    cases h with
    | pipe hp hl hr hleft hright => exact (List.mem_append.1 hc).elim (ihe hleft) (ihd hright)
  | block l rs ih =>
    obtain ⟨q, hq⟩ := h.of_wrap
    exact ih hq hc
  | exec rs args =>
    cases List.mem_singleton.1 hc
    exact ⟨p, h⟩

end Simple

theorem mode_eq_of_fd {r r' : RedirOp} (h : r.fd = r'.fd) : r.mode = r'.mode := by
  cases r <;> cases r' <;> first | rfl | cases h

theorem lastWins_iff (fds : Fds) (rs : List Redir) : LastWins rs (redirected fds rs) ↔
    ∀ fd r r', (onFd fd rs).head? = some r → (onFd fd rs).getLast? = some r' → r.file = r'.file := by
  constructor
  · intro h fd r r' hr hr'
    have := h fd r' hr'
    rw [redirected_eq, hr, Option.map_some, Option.some_or, Option.some.injEq] at this
    exact congrArg OpenFile.file this
  · intro h fd r' hr'
    obtain ⟨r, hr⟩ : ∃ r, (onFd fd rs).head? = some r := by
      cases hrs : onFd fd rs with
      | nil => simp [hrs] at hr'
      | cons r => exact ⟨r, rfl⟩
    have hfd {s : Redir} (hs : s ∈ onFd fd rs) : s.op.fd = fd := by simpa using (List.mem_filter.1 hs).2
    have hmode := mode_eq_of_fd ((hfd (List.mem_of_head? hr)).trans (hfd (List.mem_of_getLast? hr')).symm)
    rw [redirected_eq, hr, Option.map_some, Option.some_or, h fd r r' hr hr', hmode]

theorem redirection_wins_iff (line : List Byte) (hline : 0 ∉ line) (fuel : Nat)
    (hfuel : 4 * line.length + 4 ≤ fuel) (d : Deriv .line) (hd : Derives line d) (rs : List Redir)
    (args : List (Text × List Redir)) (hsimple : (rs, args) ∈ d.simple) (hargs : args ≠ [])
    (opens : Text → Nat → Bool) (hopens : ∀ r ∈ rs ++ args.flatMap Prod.snd, opens r.file r.op.mode = true)
    (fds : Fds) (h0 : fds 0 ≠ none) :
    ∃ root heap buf p argv fds', parsecmd line fuel = .ok (root, heap, buf) ∧
      Built (fun q _ w => cstring buf q = w) heap p (Deriv.exec rs args).denote ∧
      runcmd opens heap buf heap.length p fds = .exec argv fds' ∧
      (∀ i, (argv i).map (cstring buf) = (args.map Prod.fst)[i.val]?) ∧
      (LastWins (rs ++ args.flatMap Prod.snd) fds' ↔ ∀ fd r r',
        (onFd fd (rs ++ args.flatMap Prod.snd)).head? = some r →
        (onFd fd (rs ++ args.flatMap Prod.snd)).getLast? = some r' → r.file = r'.file) := by
  obtain ⟨root, heap, buf, hok, hbuilt⟩ := parsecmd_complete hline hfuel hd
  obtain ⟨p, hp⟩ := hbuilt.simple hsimple
  obtain ⟨argv, hrun, hstrings⟩ := runcmd_wrap hopens (by simpa using hargs) hp hp.lt h0
  exact ⟨root, heap, buf, p, argv, _, hok, hp, hrun, hstrings, lastWins_iff fds _⟩

/-- `main` of the shell has opened `console` until it got descriptor 3, which it closed. -/
def consoles : Fds := fun fd => if fd < 3 then some ⟨[99, 111, 110, 115, 111, 108, 101], 2⟩ else none

theorem redirection_wins_iff_once : ∃ root heap buf p argv fds', parsecmd [97, 62, 98] 16 = .ok (root, heap, buf) ∧
    runcmd (fun _ _ => true) heap buf heap.length p consoles = .exec argv fds' ∧
    fds' 1 = some ⟨[98], 0x201⟩ := by
  obtain ⟨root, heap, buf, p, argv, fds', hok, -, hrun, -, hiff⟩ := redirection_wins_iff [97, 62, 98] (by decide) 16
    (by decide) _ derives_redir [] [([97], [⟨.output, [98]⟩])] (by simp [Deriv.simple]) (by simp)
    (fun _ _ => true) (by simp) consoles (by simp [consoles])
  refine ⟨root, heap, buf, p, argv, fds', hok, hrun, hiff.2 (fun fd r r' hr hr' => ?_) 1 ⟨.output, [98]⟩ rfl⟩
  have hmem {s : Redir} (hs : s ∈ onFd fd [⟨.output, [98]⟩]) : s = ⟨.output, [98]⟩ :=
    List.mem_singleton.1 (List.mem_filter.1 hs).1
  rw [hmem (List.mem_of_head? hr), hmem (List.mem_of_getLast? hr')]

theorem first_redirection_wins : (match parsecmd [97, 62, 98, 62, 99] 24 with
    | .ok (root, heap, buf) =>
      match runcmd (fun _ _ => true) heap buf heap.length root consoles with
      | .exec _ fds => fds 1
      | _ => none
    | .error _ => none) = some ⟨[98], 0x201⟩ := by
  decide +kernel

end Xv6.Shell
