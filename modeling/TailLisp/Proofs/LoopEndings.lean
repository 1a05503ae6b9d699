import TailLisp.Proofs.Passes

/-!
# TailLisp.Proofs.LoopEndings

**How a pass through a loop ends.** Run with a record, a pass does one of two things: its last two
deeds assign the result and lower the flag (`LeftWith`), or its last deeds assign every variable of
the loop and the target of every pattern, and the loop goes on (`JumpedBack`). Nothing that it does
before touches the flag or the result.

The shape of the body is that of `Lowering.Pass`, by induction on which a run is followed
(`Pass.ends`). The record of the run then says what the flag and the result are afterwards
(`Interp.recorded_traceAll`).
-/

namespace TailLisp

/-- The statements are assignments to the names, one to each in order. -/
def Stmt.Assign (xs : List String) (ss : List Stmt) : Prop :=
  List.Forall₂ (fun x s => ∃ value place, s = .assign x value place) xs ss

/-- The assignments of a row of bindings. -/
theorem Stmt.assign_bindings (outer : Option Span) (bs : List Binding) :
    Assign (bs.map (·.target)) (Binding.assigns outer bs) := by
  induction bs with
  | nil => exact .nil
  | cons b bs ih => exact .cons ⟨_, _, rfl⟩ ih

theorem Stmt.assign_zip {xs ys : List String} (h : ys.length = xs.length) (place : Option Span) :
    Assign xs ((xs.zip ys).map fun pair => .assign pair.1 (.load pair.2) place) := by
  induction xs generalizing ys with
  | nil => exact .nil
  | cons x xs ih =>
    cases ys with
    | nil => cases h
    | cons y ys => exact .cons ⟨_, _, rfl⟩ (ih (Nat.succ.inj h))

namespace Interp

open Deed

variable {self : Interp} {frames : List Nat} {W W' : World} {signal : Signal} {deeds : List Deed}
  {ss ts : List Stmt}

theorem execAll_of_trace (h : traceAll self frames ss W = .ok (signal, deeds) W') :
    execAll self frames ss W = .ok signal W' := by
  rw [execAll_eq_trace, map_eq_pure_bind, Exec.bind_ok h]
  rfl

/-- Every run has a record. -/
theorem exists_trace (h : execAll self frames ss W = .ok signal W') :
    ∃ deeds, traceAll self frames ss W = .ok (signal, deeds) W' := by
  rw [execAll_eq_trace, map_eq_pure_bind, Exec.bind_ok_iff] at h
  obtain ⟨⟨signal', deeds⟩, W₁, htrace, h⟩ := h
  obtain ⟨heq, rfl⟩ := Exec.pure_ok_iff.mp h
  cases heq
  exact ⟨deeds, htrace⟩

/-- A run of two blocks is a run of the first and one of the second, or it stops in the first. -/
theorem traceAll_append (h : traceAll self frames (ss ++ ts) W = .ok (signal, deeds) W') :
    (∃ before W₁ rest, traceAll self frames ss W = .ok (.done, before) W₁ ∧
      traceAll self frames ts W₁ = .ok (signal, rest) W' ∧ deeds = before ++ rest) ∨
    signal ≠ .done ∧ traceAll self frames ss W = .ok (signal, deeds) W' := by
  induction ss generalizing W deeds with
  | nil => exact .inl ⟨[], W, deeds, rfl, h, rfl⟩
  | cons s ss ih =>
    simp only [List.cons_append, traceAll, Exec.bind_ok_iff] at h ⊢
    obtain ⟨⟨signal₁, deeds₁⟩, W₁, hs, h⟩ := h
    cases signal₁ with
    | done =>
      simp only [Exec.bind_ok_iff] at h
      obtain ⟨⟨signal₂, deeds₂⟩, W₂, hrest, h⟩ := h
      obtain ⟨heq, rfl⟩ := Exec.pure_ok_iff.mp h
      cases heq
      rcases ih hrest with ⟨before, W₃, rest, hss, hts, rfl⟩ | ⟨hsignal, hss⟩
      · refine .inl ⟨deeds₁ ++ before, W₃, rest, ⟨_, _, hs, ?_⟩, hts, by simp⟩
        exact Exec.bind_ok_iff.mpr ⟨_, _, hss, rfl⟩
      · exact .inr ⟨hsignal, _, _, hs, Exec.bind_ok_iff.mpr ⟨_, _, hss, rfl⟩⟩
    | next | returned _ =>
      obtain ⟨heq, rfl⟩ := Exec.pure_ok_iff.mp h
      cases heq
      exact .inr ⟨by simp, _, _, hs, rfl⟩

/-- Tame statements run to their end, and spare the names that they are to spare. -/
theorem traceAll_tame {depth : Nat} {Z : String → Bool} (htame : Stmt.Tame Z false ss)
    (h : traceAll (upTo depth) frames (ss ++ ts) W = .ok (signal, deeds) W') :
    ∃ before W₁ rest, traceAll (upTo depth) frames ts W₁ = .ok (signal, rest) W' ∧
      deeds = before ++ rest ∧ ∀ x ∈ names before, Z x = false := by
  rcases traceAll_append h with ⟨before, W₁, rest, hss, hts, rfl⟩ | ⟨hsignal, hss⟩
  · refine ⟨before, W₁, rest, hts, rfl, fun x hx => ?_⟩
    exact Stmt.allSpare_assigned ss htame.spare x
      ((recorded_traceAll depth frames ss hss).names x hx)
  · rcases execAll_signal (upTo depth) frames ss htame.stay (execAll_of_trace hss)
      with hdone | hnext
    · exact absurd hdone hsignal
    · cases hnext.2

/-- The record of an assignment begins with what it binds. -/
theorem traceAll_assign {x : String} {value : Expr} {place : Option Span}
    (h : traceAll self frames (.assign x value place :: ss) W = .ok (signal, deeds) W') :
    ∃ v W₁ W₂ rest, eval self frames value W = .ok v W₁ ∧
      traceAll self frames ss W₂ = .ok (signal, rest) W' ∧ deeds = .bound x v :: rest := by
  simp only [traceAll, trace, Exec.bind_ok_iff] at h
  obtain ⟨⟨signal₁, deeds₁⟩, W₁, ⟨v, W₂, hvalue, _, W₃, -, hs⟩, h⟩ := h
  obtain ⟨heq, rfl⟩ := Exec.pure_ok_iff.mp hs
  cases heq
  simp only [Exec.bind_ok_iff] at h
  obtain ⟨⟨signal₂, rest⟩, W₄, hrest, h⟩ := h
  obtain ⟨heq, rfl⟩ := Exec.pure_ok_iff.mp h
  cases heq
  exact ⟨v, W₂, W₃, rest, hvalue, hrest, rfl⟩

/-- A run of a branch is one of its arms, after the test. -/
theorem traceAll_branch {test : Expr} {yes no : List Stmt} {place : Option Span}
    (h : traceAll self frames [.branch test yes no place] W = .ok (signal, deeds) W') :
    ∃ v W₁ rest, deeds = .found v :: rest ∧
      (traceAll self frames yes W₁ = .ok (signal, rest) W' ∨
        traceAll self frames no W₁ = .ok (signal, rest) W') := by
  simp only [traceAll, trace, Exec.bind_ok_iff] at h
  obtain ⟨⟨signal₁, deeds₁⟩, W₁, ⟨v, W₂, -, b, W₃, -, harm⟩, h⟩ := h
  have hend : signal₁ = signal ∧ deeds₁ = deeds ∧ W₁ = W' := by
    cases signal₁ with
    | done =>
      obtain ⟨heq, rfl⟩ := Exec.pure_ok_iff.mp h
      cases heq
      exact ⟨rfl, (List.append_nil _).symm, rfl⟩
    | next | returned _ =>
      obtain ⟨heq, rfl⟩ := Exec.pure_ok_iff.mp h
      cases heq
      exact ⟨rfl, rfl, rfl⟩
  obtain ⟨rfl, rfl, rfl⟩ := hend
  cases b with
  | true =>
    obtain ⟨⟨signal₂, rest⟩, W₄, hyes, harm⟩ := Exec.bind_ok_iff.mp harm
    obtain ⟨heq, rfl⟩ := Exec.pure_ok_iff.mp harm
    cases heq
    exact ⟨v, W₃, rest, rfl, .inl hyes⟩
  | false =>
    obtain ⟨⟨signal₂, rest⟩, W₄, hno, harm⟩ := Exec.bind_ok_iff.mp harm
    obtain ⟨heq, rfl⟩ := Exec.pure_ok_iff.mp harm
    cases heq
    exact ⟨v, W₃, rest, rfl, .inr hno⟩

/-- Assignments in a row give the targets values in a row. -/
theorem traceAll_assigns {xs : List String}
    (hss : Stmt.Assign xs ss)
    (h : traceAll self frames (ss ++ ts) W = .ok (signal, deeds) W') :
    ∃ values W₁ rest, values.length = xs.length ∧
      traceAll self frames ts W₁ = .ok (signal, rest) W' ∧
      deeds = List.zipWith .bound xs values ++ rest := by
  induction hss generalizing W deeds with
  | nil => exact ⟨[], W, deeds, rfl, h, rfl⟩
  | cons hs _ ih =>
    obtain ⟨value, place, rfl⟩ := hs
    obtain ⟨v, W₁, W₂, rest, -, hrest, rfl⟩ := traceAll_assign h
    obtain ⟨values, W₃, rest, hlength, hts, rfl⟩ := ih hrest
    exact ⟨v :: values, W₃, rest, by simp [hlength], hts, rfl⟩

end Interp

namespace Lowering

open Interp Deed Compile

/-- The last deeds assign the result and lower the flag, and these are not assigned before. -/
def LeftWith (exit : LoopExit) (value : Value) (deeds : List Deed) : Prop :=
  ∃ before, deeds = before ++ [.bound exit.result value, .bound exit.flag (.const (.bool false))]
    ∧ exit.result ∉ names before ∧ exit.flag ∉ names before

/-- The last deeds assign all variables of the loop and then the targets of its patterns, and the
result and the flag are not assigned at all. -/
def JumpedBack (target : LoopTarget) (exit : LoopExit) (deeds : List Deed) : Prop :=
  ∃ before values again, values.length = target.vars.length ∧ again.length = target.rebind.length
    ∧ deeds = before ++ List.zipWith .bound target.vars values
      ++ List.zipWith .bound (target.rebind.map (·.target)) again
    ∧ exit.result ∉ names deeds ∧ exit.flag ∉ names deeds

/-- A pass has left the loop with a value, or it has jumped back. -/
def Ended (target : LoopTarget) (exit : LoopExit) (signal : Signal) (deeds : List Deed) : Prop :=
  (signal = .done ∧ ∃ value, LeftWith exit value deeds) ∨
    signal = .next ∧ JumpedBack target exit deeds

variable {Z : String → Bool} {target : LoopTarget} {exit : LoopExit} {ss : List Stmt}
  {signal : Signal} {deeds before : List Deed}

/-- What is done before the end of a pass does not matter, if it leaves flag and result alone. -/
theorem Ended.after (h : Ended target exit signal deeds)
    (hbefore : exit.result ∉ names before ∧ exit.flag ∉ names before) :
    Ended target exit signal (before ++ deeds) := by
  rcases h with ⟨hsignal, value, first, rfl, hresult, hflag⟩ |
    ⟨hsignal, first, values, again, hvalues, hagain, rfl, hresult, hflag⟩
  · refine .inl ⟨hsignal, value, before ++ first, by simp, ?_, ?_⟩
    · simpa using ⟨hbefore.1, hresult⟩
    · simpa using ⟨hbefore.2, hflag⟩
  · refine .inr ⟨hsignal, before ++ first, values, again, hvalues, hagain, by simp, ?_, ?_⟩
    · rw [names_append, List.mem_append, not_or]
      exact ⟨hbefore.1, hresult⟩
    · rw [names_append, List.mem_append, not_or]
      exact ⟨hbefore.2, hflag⟩

theorem mem_names_bound {xs : List String} {values : List Value} {x : String}
    (hx : x ∈ names (List.zipWith .bound xs values)) : x ∈ xs := by
  induction xs generalizing values with
  | nil => cases hx
  | cons y xs ih =>
    cases values with
    | nil => cases hx
    | cons v values =>
      rcases List.mem_cons.mp hx with rfl | hx
      · exact List.mem_cons_self
      · exact List.mem_cons_of_mem _ (ih hx)

/-- Every run of a pass comes to one of the two ends. -/
theorem Pass.ends {depth : Nat} {frames : List Nat} (h : Pass Z target exit ss)
    (hresult : Z exit.result = true) (hflag : Z exit.flag = true)
    (hvars : ∀ x ∈ target.vars, Z x = false)
    (hrebind : ∀ x ∈ target.rebind.map (·.target), Z x = false) {W W' : World}
    (hrun : traceAll (Interp.upTo depth) frames ss W = .ok (signal, deeds) W') :
    Ended target exit signal deeds := by
  have spared {names : List String} (hnames : ∀ x ∈ names, Z x = false) :
      exit.result ∉ names ∧ exit.flag ∉ names := by
    refine ⟨fun hmem => ?_, fun hmem => ?_⟩
    · rw [hnames _ hmem] at hresult; cases hresult
    · rw [hnames _ hmem] at hflag; cases hflag
  induction h generalizing W deeds with
  | leave value place =>
    obtain ⟨v, W₁, W₂, rest, -, hrest, rfl⟩ := traceAll_assign hrun
    obtain ⟨_, W₃, W₄, rest, hlowered, hnone, rfl⟩ := traceAll_assign hrest
    obtain ⟨rfl, -⟩ := Exec.pure_ok_iff.mp hlowered
    obtain ⟨heq, -⟩ := Exec.pure_ok_iff.mp hnone
    cases heq
    exact .inl ⟨rfl, v, [], rfl, List.not_mem_nil, List.not_mem_nil⟩
  | jump temps place outer hlength =>
    rw [List.append_assoc] at hrun
    obtain ⟨values, W₁, rest, hvalues, hrest, rfl⟩ :=
      traceAll_assigns (Stmt.assign_zip hlength place) hrun
    obtain ⟨again, W₂, rest, hagain, hnext, rfl⟩ :=
      traceAll_assigns (Stmt.assign_bindings outer target.rebind) hrest
    obtain ⟨heq, -⟩ := Exec.pure_ok_iff.mp hnext
    cases heq
    have hnames : ∀ x ∈ names (List.zipWith .bound target.vars values ++
        (List.zipWith .bound (target.rebind.map (·.target)) again ++ [])), Z x = false := by
      rw [List.append_nil, names_append]
      exact List.forall_mem_append.mpr ⟨fun x hx => hvars x (mem_names_bound hx),
        fun x hx => hrebind x (mem_names_bound hx)⟩
    refine .inr ⟨rfl, [], values, again, hvalues, by simpa using hagain, by simp, spared hnames⟩
  | branch test place _ _ hyes hno =>
    obtain ⟨v, W₁, rest, rfl, harm⟩ := traceAll_branch hrun
    have hfound : exit.result ∉ names [.found v] ∧ exit.flag ∉ names [.found v] := spared nofun
    rcases harm with harm | harm
    · exact (hyes harm).after hfound
    · exact (hno harm).after hfound
  | after htame _ ih =>
    obtain ⟨before, W₁, rest, hrest, rfl, hbefore⟩ := traceAll_tame htame hrun
    exact (ih hrest).after (spared hbefore)

/-- What the flag and the result are after a pass. -/
theorem Ended.values {frames : List Nat} {xs : List String} {W W' : World}
    (h : Ended target exit signal deeds) (hne : exit.result ≠ exit.flag)
    (hopen : IsOpen frames W) (hrecord : Recorded frames xs W deeds W') :
    (signal = .done ∧ ∃ value, LeftWith exit value deeds
      ∧ ownValue? frames W' exit.result = some value
      ∧ ownValue? frames W' exit.flag = some (.const (.bool false))) ∨
    signal = .next ∧ JumpedBack target exit deeds
      ∧ ownValue? frames W' exit.result = ownValue? frames W exit.result
      ∧ ownValue? frames W' exit.flag = ownValue? frames W exit.flag := by
  have hvalues := hrecord.values hopen
  rcases h with ⟨hsignal, value, hleft⟩ | ⟨hsignal, hjump⟩
  · refine .inl ⟨hsignal, value, hleft, ?_, ?_⟩
    · obtain ⟨before, rfl, -⟩ := hleft
      rw [hvalues, replay_append]
      simp [replay, leave, hne.symm]
    · obtain ⟨before, rfl, -⟩ := hleft
      rw [hvalues, replay_append]
      simp [replay, leave]
  · obtain ⟨-, -, -, -, -, -, hresult, hflag⟩ := id hjump
    refine .inr ⟨hsignal, hjump, ?_, ?_⟩
    · rw [hvalues, replay_of_not_mem hresult]
    · rw [hvalues, replay_of_not_mem hflag]

/-! ### Whole loops -/

/-- Is the name the flag or the result of the loop? -/
def isExit (exit : LoopExit) (x : String) : Bool := x == exit.flag || x == exit.result

/-- A temporary is made when `fresh` returns it, and not before. -/
theorem fresh_makes (s : String) {stem x : String} (hstem : stem = s ++ "_") {c c' : Context}
    (h : fresh stem c = .ok x c') : c.Later c' ∧ c.Makes c' x := by
  subst hstem
  cases h
  exact ⟨c.later_fresh (s ++ "_"), c.makes_fresh s⟩

/-- A loop consists of what binds its variables, the start of its flag and its result, and a body
that is a pass. -/
theorem whileLoop_pass (n : Nat) {body : List Form} {span : Option Span} {c c' : Context}
    {stmts : List Stmt} (hrun : whileLoop (upTo n) target body span c = .ok (stmts, exit) c')
    (hbody : ∀ form ∈ body, form.Avoids (isExit exit)) :
    c.Future exit.flag ∧ c.Future exit.result ∧ exit.result ≠ exit.flag ∧ ∃ pass place,
      Pass (isExit exit) { target with exit := some exit } exit pass ∧ stmts =
      Binding.assigns span target.inits ++ [.assign exit.flag (.constant (.bool true)) place,
          .assign exit.result (.constant .nil) place, .loop (.load exit.flag) pass place] := by
  obtain ⟨flag, c₁, hflag, hrun⟩ := bind_ok hrun
  obtain ⟨result, c₂, hresult, hrun⟩ := bind_ok hrun
  obtain ⟨⟨ss, helpers⟩, c₃, hcollect, hrun⟩ := bind_ok hrun
  obtain ⟨_, c₄, -, hrun⟩ := bind_ok hrun
  obtain ⟨heq, -⟩ := pure_ok hrun
  cases heq
  obtain ⟨hlater₁, hflag⟩ := fresh_makes "continue" rfl hflag
  obtain ⟨hlater₂, hresult⟩ := fresh_makes "result" rfl hresult
  have hsets : c₂.Sets (isExit ⟨flag, result⟩) := by
    intro x hx hfuture
    rcases Bool.or_eq_true_iff.mp hx with hx | hx
    · rw [beq_iff_eq.mp hx] at hfuture
      exact hflag.2 (hlater₂.future hfuture)
    · rw [beq_iff_eq.mp hx] at hfuture
      exact hresult.2 hfuture
  have hcovers := Material.sparing_covers hsets
  have hpasses : Crafts (.sparing (isExit ⟨flag, result⟩) c₂)
      (Pass (isExit ⟨flag, result⟩) { target with exit := some ⟨flag, result⟩ } ⟨flag, result⟩)
      (loopBody (upTo n) { target with exit := some ⟨flag, result⟩ } body) :=
    loopBody_passes (fun _ hx => hx) (upTo_crafted hcovers n)
      (upTo_passing hcovers (fun _ hx => hx) n) rfl body fun form hform =>
        (hbody form hform).throughout
  obtain ⟨⟨hpass, hhelpers⟩, -⟩ :=
    hpasses.collect hcollect ⟨fun _ hn => ⟨rfl, hn⟩, fun _ _ _ _ => trivial⟩
  have hne : result ≠ flag := fun heq => hflag.2 (heq ▸ hresult.1)
  exact ⟨hflag.1, hlater₁.future hresult.1, hne, helpers ++ ss, _,
    .after (hhelpers.tame fun _ hx => hx) hpass, rfl⟩

/-- Every pass through the body of a loop ends in exactly one exit or one jump. The body is made of
code that assigns neither the flag nor the result, and of exits and jumps. Any run of it that comes
to an end has assigned the result once and then lowered the flag as its last deed; or it has
assigned every variable of the loop and then the target of every pattern, and goes on with the next
round, the flag and the result as they were.

The names of the forms and of the loop are taken to be other than these two; both are temporaries
that are made for this loop. -/
theorem whileLoop_passes_end_once (n : Nat) {target : LoopTarget} {body : List Form}
    {span : Option Span} {c c' : Context} {stmts : List Stmt} {exit : LoopExit}
    (hrun : whileLoop (upTo n) target body span c = .ok (stmts, exit) c')
    (hbody : ∀ form ∈ body, form.spells (fun x => !isExit exit x) = true)
    (hvars : ∀ x ∈ target.vars, isExit exit x = false)
    (hrebind : ∀ x ∈ target.rebind.map (·.target), isExit exit x = false) :
    c.Future exit.flag ∧ c.Future exit.result ∧ exit.result ≠ exit.flag ∧ ∃ pass place,
      stmts = Binding.assigns span target.inits ++
        [.assign exit.flag (.constant (.bool true)) place,
          .assign exit.result (.constant .nil) place, .loop (.load exit.flag) pass place] ∧
      Pass (isExit exit) { target with exit := some exit } exit pass ∧
      ∀ depth frames (W : World) signal W', IsOpen frames W →
        execAll (Interp.upTo depth) frames pass W = .ok signal W' →
        ∃ deeds, traceAll (Interp.upTo depth) frames pass W = .ok (signal, deeds) W' ∧
          ((signal = .done ∧ ∃ value, LeftWith exit value deeds
              ∧ ownValue? frames W' exit.result = some value
              ∧ ownValue? frames W' exit.flag = some (.const (.bool false))) ∨
            (signal = .next ∧ JumpedBack target exit deeds
              ∧ ownValue? frames W' exit.result = ownValue? frames W exit.result
              ∧ ownValue? frames W' exit.flag = ownValue? frames W exit.flag)) := by
  obtain ⟨hflag, hresult, hne, pass, place, hpass, rfl⟩ := whileLoop_pass n hrun hbody
  refine ⟨hflag, hresult, hne, pass, place, rfl, hpass, ?_⟩
  intro depth frames W signal W' hopen hexec
  obtain ⟨deeds, htrace⟩ := exists_trace hexec
  have hended : Ended target exit signal deeds :=
    hpass.ends (by simp [isExit]) (by simp [isExit]) hvars hrebind htrace
  exact ⟨deeds, htrace, hended.values hne hopen (recorded_traceAll depth frames pass htrace)⟩

/-- The body `(loop [i n] (if (= i 0) i (recur 0))) (if (= n 0) acc (recur 0 (fn [] acc)))`: an
inner loop with passes of its own, and a helper function in a jump. -/
def delayBody : List Form :=
  [.made [.named "loop", .vector [.named "i", .named "n"] .none,
      .made [.named "if", .made [.named "=", .named "i", .const (.int 0)], .named "i",
        .made [.named "recur", .const (.int 0)]]],
    .made [.named "if", .made [.named "=", .named "n", .const (.int 0)], .named "acc",
      .made [.named "recur", .const (.int 0), .made [.named "fn", .vector [] .none, .named "acc"]]]]

/-- Does a run of the loop's body, as the last of the statements, end with a jump? -/
def jumpsFrom (n : Int) (stmts : List Stmt) : Option Bool :=
  match stmts with
  | [_, _, .loop _ pass _] =>
    match execAll (Interp.upTo 1) [] pass { globals := [("n", .ofInt n), ("acc", .ofInt 7)] } with
    | .ok .next _ => some true
    | .ok .done _ => some false
    | _ => none
  | _ => none

theorem exec_of_jumpsFrom {n : Int} {jumps : Bool} {flag result : Stmt} {test : Expr}
    {pass : List Stmt} {place : Option Span}
    (h : jumpsFrom n [flag, result, .loop test pass place] = some jumps) :
    ∃ W', execAll (Interp.upTo 1) [] pass { globals := [("n", .ofInt n), ("acc", .ofInt 7)] } =
      .ok (if jumps then .next else .done) W' := by
  unfold jumpsFrom at h
  dsimp only at h
  split at h
  · cases h
    exact ⟨_, ‹_›⟩
  · cases h
    exact ⟨_, ‹_›⟩
  · cases h

/-- With `n` at one the pass jumps, with `n` at zero it leaves the loop. -/
theorem whileLoop_passes_end_once_delay :
    ∃ stmts exit c', whileLoop (upTo 5) { vars := ["n", "acc"] } delayBody none {} =
        .ok (stmts, exit) c' ∧
      (∀ form ∈ delayBody, form.spells (fun x => !isExit exit x) = true) ∧
      (∀ x ∈ ["n", "acc"], isExit exit x = false) ∧
      ∃ pass place, stmts = [.assign exit.flag (.constant (.bool true)) place,
          .assign exit.result (.constant .nil) place, .loop (.load exit.flag) pass place] ∧
        (∃ W' deeds, traceAll (Interp.upTo 1) [] pass
            { globals := [("n", .ofInt 1), ("acc", .ofInt 7)] } = .ok (.next, deeds) W' ∧
          JumpedBack { vars := ["n", "acc"] } exit deeds) ∧
        ∃ W' deeds value, traceAll (Interp.upTo 1) [] pass
            { globals := [("n", .ofInt 0), ("acc", .ofInt 7)] } = .ok (.done, deeds) W' ∧
          LeftWith exit value deeds ∧ ownValue? [] W' exit.result = some value := by
  have hcheck : (match whileLoop (upTo 5) { vars := ["n", "acc"] } delayBody none {} with
      | .ok (stmts, exit) _ => decide (∀ form ∈ delayBody,
          form.spells (fun x => !isExit exit x) = true) && decide (∀ x ∈ ["n", "acc"],
          isExit exit x = false) && (jumpsFrom 1 stmts == some true)
          && (jumpsFrom 0 stmts == some false)
      | .error _ _ => false) = true := by decide +kernel
  cases hrun : whileLoop (upTo 5) { vars := ["n", "acc"] } delayBody none {} with
  | error fault c' =>
    rw [hrun] at hcheck
    cases hcheck
  | ok result c' =>
    obtain ⟨stmts, exit⟩ := result
    rw [hrun] at hcheck
    simp only [Bool.and_eq_true, decide_eq_true_eq, beq_iff_eq] at hcheck
    obtain ⟨⟨⟨hbody, hvars⟩, hjumps⟩, hleaves⟩ := hcheck
    obtain ⟨-, -, -, pass, place, rfl, -, hends⟩ :=
      whileLoop_passes_end_once 5 hrun hbody hvars nofun
    refine ⟨_, exit, c', rfl, hbody, hvars, pass, place, rfl, ?_, ?_⟩
    · obtain ⟨W', hexec⟩ := exec_of_jumpsFrom hjumps
      obtain ⟨deeds, htrace, ⟨hsignal, -⟩ | ⟨-, hjump, -⟩⟩ := hends 1 [] _ _ W' nofun hexec
      · cases hsignal
      · exact ⟨W', deeds, htrace, hjump⟩
    · obtain ⟨W', hexec⟩ := exec_of_jumpsFrom hleaves
      obtain ⟨deeds, htrace, ⟨-, value, hleft, hresult, -⟩ | ⟨hsignal, -⟩⟩ :=
        hends 1 [] _ _ W' nofun hexec
      · exact ⟨W', deeds, value, htrace, hleft, hresult⟩
      · cases hsignal

end Lowering

end TailLisp
