import TailLisp.Proofs.InsulatedCalls

/-!
# TailLisp.Proofs.Deeds

**What a run does at its own level.** The signal and the world after a run say nothing about the
way there. `Interp.trace` runs a statement as `Interp.exec` does (`exec_eq_trace`) and keeps a
record: each value that a variable of the innermost frame is given, and each value that is found
for a test or for its effects. What functions do that are called on the way is not part of it.

The record is complete as far as variables go: the innermost frame after a run has the values that
the record leaves, and only names that the statements assign occur in it (`recorded_traceAll`).
Statements without `return` run to their end or to a `continue` of theirs (`execAll_signal`).
-/

namespace TailLisp

namespace Exec

variable {α β : Type} {m : Exec α} {W W' : World}

theorem bind_ok_iff {f : α → Exec β} {b : β} :
    (m >>= f) W = .ok b W' ↔ ∃ a W₁, m W = .ok a W₁ ∧ f a W₁ = .ok b W' := by
  cases hm : m W with
  | ok a W₁ =>
    rw [bind_ok hm]
    refine ⟨fun h => ⟨a, W₁, rfl, h⟩, ?_⟩
    rintro ⟨_, _, ⟨⟩, h⟩
    exact h
  | error e W₁ => rw [bind_error hm]; simp

theorem pure_ok_iff {a b : α} : (pure a : Exec α) W = .ok b W' ↔ a = b ∧ W = W' := by
  show EStateM.Result.ok a W = .ok b W' ↔ _
  simp

end Exec

namespace Stmt

mutual

/-- Is there no `return` in the statement, and no `continue` of a loop around it unless it stands in
one? Functions are not looked into. -/
def stays (inLoop : Bool) : Stmt → Bool
  | .ret _ _ => false
  | .branch _ yes no _ => allStay inLoop yes && allStay inLoop no
  | .loop _ body _ => allStay true body
  | .next _ => inLoop
  | .assign _ _ _ => true
  | .eval _ _ => true
  | .define _ _ _ _ _ => true
  | .skip _ => true

/-- Is there no `return` in the statements, and no `continue` of a loop around them unless they
stand in one? -/
def allStay (inLoop : Bool) : List Stmt → Bool
  | [] => true
  | s :: ss => stays inLoop s && allStay inLoop ss

end

end Stmt

namespace Interp

/-- One thing that a run does. -/
inductive Deed where
  /-- A variable of the innermost frame is given a value. -/
  | bound (name : String) (value : Value)
  /-- An expression has the value. -/
  | found (value : Value)

namespace Deed

/-- The name of the variable that is given a value. -/
def name? : Deed → Option String
  | .bound name _ => some name
  | .found _ => none

/-- The names of the variables that are given values. -/
def names (deeds : List Deed) : List String := deeds.filterMap name?

/-- The value of a variable after one thing was done. -/
def leave (x : String) (before : Option Value) : Deed → Option Value
  | .bound name value => if name = x then some value else before
  | .found _ => before

/-- The value of a variable after all was done. -/
def replay (x : String) (before : Option Value) (deeds : List Deed) : Option Value :=
  deeds.foldl (leave x) before

@[simp] theorem names_append (deeds deeds' : List Deed) :
    names (deeds ++ deeds') = names deeds ++ names deeds' := List.filterMap_append

@[simp] theorem names_bound (x : String) (v : Value) (deeds : List Deed) :
    names (.bound x v :: deeds) = x :: names deeds := rfl

@[simp] theorem replay_append (x : String) (before : Option Value) (deeds deeds' : List Deed) :
    replay x before (deeds ++ deeds') = replay x (replay x before deeds) deeds' :=
  List.foldl_append

/-- A variable that no deed binds keeps its value. -/
theorem replay_of_not_mem {x : String} {deeds : List Deed} (h : x ∉ names deeds)
    (before : Option Value) : replay x before deeds = before := by
  induction deeds with
  | nil => rfl
  | cons deed deeds ih =>
    cases deed with
    | found v => exact ih h
    | bound y v =>
      rw [names_bound, List.mem_cons, not_or] at h
      have hleave : leave x before (.bound y v) = before := if_neg (Ne.symm h.1)
      rw [replay, List.foldl_cons, hleave]
      exact ih h.2

end Deed

open Deed

/-! ### Running with a record -/

/-- Go round a loop with a record. -/
def traceRounds (test : Exec Value) (body : Exec (Signal × List Deed)) :
    Nat → Exec (Signal × List Deed)
  | 0 => do
    let v ← test
    if ← Exec.truth v then Exec.fail .exhausted else return (.done, [.found v])
  | left + 1 => do
    let v ← test
    if ← Exec.truth v then
      let (signal, deeds) ← body
      match signal with
      | .returned value => return (.returned value, .found v :: deeds)
      | _ =>
        let (signal, rest) ← traceRounds test body left
        return (signal, .found v :: deeds ++ rest)
    else return (.done, [.found v])

mutual

/-- Run a statement with a record. -/
def trace (self : Interp) (frames : List Nat) : Stmt → Exec (Signal × List Deed)
  | .assign target value _ => do
    let v ← eval self frames value
    assignName frames target v
    return (.done, [.bound target v])
  | .eval value _ => do
    let v ← eval self frames value
    return (.done, [.found v])
  | .ret value _ => do
    let v ← eval self frames value
    return (.returned v, [.found v])
  | .branch test yes no _ => do
    let v ← eval self frames test
    if ← Exec.truth v then
      let (signal, deeds) ← traceAll self frames yes
      return (signal, .found v :: deeds)
    else
      let (signal, deeds) ← traceAll self frames no
      return (signal, .found v :: deeds)
  | .loop test body _ =>
    traceRounds (eval self frames test) (traceAll self frames body) self.loopLimit
  | .define name params rest body _ => do
    let v ← newFunction frames name params rest body
    assignName frames name v
    return (.done, [.bound name v])
  | .skip _ => return (.done, [])
  | .next _ => return (.next, [])

/-- Run statements in order with a record. -/
def traceAll (self : Interp) (frames : List Nat) : List Stmt → Exec (Signal × List Deed)
  | [] => return (.done, [])
  | s :: ss => do
    let (signal, deeds) ← trace self frames s
    match signal with
    | .done =>
      let (signal, rest) ← traceAll self frames ss
      return (signal, deeds ++ rest)
    | signal => return (signal, deeds)

end

/-- A loop with a record runs as the loop does. -/
theorem rounds_eq_trace (test : Exec Value) (body : Exec (Signal × List Deed)) (left : Nat) :
    rounds (do Exec.truth (← test)) (Prod.fst <$> body) left =
      Prod.fst <$> traceRounds test body left := by
  induction left with
  | zero =>
    simp only [rounds, traceRounds, map_bind, bind_assoc]
    congr 1; funext v; congr 1; funext b
    cases b <;> rfl
  | succ left ih =>
    simp only [rounds, traceRounds, map_bind, bind_assoc]
    congr 1; funext v; congr 1; funext b
    cases b with
    | false => rfl
    | true =>
      simp only [if_true, map_eq_pure_bind, bind_assoc]
      congr 1; funext p
      obtain ⟨signal, deeds⟩ := p
      cases signal with
      | returned value => simp
      | done | next => simpa using ih

mutual

/-- A statement with a record runs as the statement does, by recursion on the statement. -/
theorem exec_eq_trace (self : Interp) (frames : List Nat) :
    ∀ s : Stmt, exec self frames s = Prod.fst <$> trace self frames s
  | .assign _ _ _ => by simp [exec, trace]
  | .eval _ _ => by simp [exec, trace]
  | .ret _ _ => by simp [exec, trace]
  | .branch test yes no _ => by
    simp only [exec, trace, map_bind]
    congr 1; funext v; congr 1; funext b
    cases b with
    | true => simp [execAll_eq_trace self frames yes]
    | false => simp [execAll_eq_trace self frames no]
  | .loop test body _ => by
    rw [exec, trace, execAll_eq_trace self frames body, rounds_eq_trace]
  | .define _ _ _ _ _ => by simp [exec, trace]
  | .skip _ => rfl
  | .next _ => rfl

theorem execAll_eq_trace (self : Interp) (frames : List Nat) :
    ∀ ss : List Stmt, execAll self frames ss = Prod.fst <$> traceAll self frames ss
  | [] => rfl
  | s :: ss => by
    simp only [execAll, traceAll, exec_eq_trace self frames s, execAll_eq_trace self frames ss,
      map_eq_pure_bind, bind_assoc]
    congr 1; funext p
    obtain ⟨signal, deeds⟩ := p
    cases signal <;> simp

end

/-! ### The record and the world -/

/-- The value that a name has in the innermost frame, or globally outside of functions. -/
def ownValue? (frames : List Nat) (W : World) (x : String) : Option Value :=
  match frames with
  | [] => W.globals.lookup x
  | ref :: _ => ((W.varsOf ref).lookup x).join

/-- The innermost frame is there. -/
def IsOpen (frames : List Nat) (W : World) : Prop := ∀ ref ∈ frames.head?, ref < W.frames.size

theorem ownValue?_of_leads {frames : List Nat} {W W₁ : World} (hopen : IsOpen frames W)
    (h : W.Leads .nothing W₁) : IsOpen frames W₁ ∧ ownValue? frames W₁ = ownValue? frames W := by
  refine ⟨fun ref href => Nat.lt_of_lt_of_le (hopen ref href) h.within.frames, ?_⟩
  funext x
  cases frames with
  | nil => exact h.globals x fun _ hx => hx
  | cons ref frames => rw [ownValue?, ownValue?, h.vars ref (hopen ref rfl) x id]

/-- An assignment changes the one variable, in the frame that comes first. -/
theorem ownValue?_assignName {frames : List Nat} {W W₁ : World} {x : String} {v : Value}
    (hopen : IsOpen frames W) (h : assignName frames x v W = .ok () W₁) :
    IsOpen frames W₁ ∧
      ∀ y, ownValue? frames W₁ y = (Deed.bound x v).leave y (ownValue? frames W y) := by
  cases frames with
  | nil =>
    obtain ⟨-, rfl⟩ := EStateM.Result.ok.inj h
    refine ⟨nofun, fun y => ?_⟩
    simp only [ownValue?, leave, lookup_assign, eq_comm]
  | cons ref frames =>
    obtain ⟨-, rfl⟩ := EStateM.Result.ok.inj h
    have href : ref < W.frames.size := hopen ref rfl
    refine ⟨fun other hother => ?_, fun y => ?_⟩
    · simpa using hopen other hother
    · simp only [ownValue?, leave, Veil.varsOf_assignVar, href, and_self, if_true, lookup_assign]
      by_cases hy : y = x
      · simp [hy]
      · simp [hy, Ne.symm hy]

/-- From one world to the other the deeds were done, by statements that assign the given names. -/
structure Recorded (frames : List Nat) (names : List String) (W : World) (deeds : List Deed)
    (W' : World) : Prop where
  names : ∀ x ∈ Deed.names deeds, x ∈ names
  isOpen : IsOpen frames W → IsOpen frames W'
  values : IsOpen frames W → ∀ x, ownValue? frames W' x = replay x (ownValue? frames W x) deeds

namespace Recorded

variable {frames : List Nat} {names names' : List String} {W W₁ W₂ : World}
  {deeds deeds' : List Deed}

theorem nil (W : World) : Recorded frames names W [] W := ⟨nofun, id, fun _ _ => rfl⟩

/-- Records of two runs, one after the other. -/
theorem append (h : Recorded frames names W deeds W₁) (h' : Recorded frames names W₁ deeds' W₂) :
    Recorded frames names W (deeds ++ deeds') W₂ := by
  refine ⟨fun x hx => ?_, fun hopen => h'.isOpen (h.isOpen hopen), fun hopen x => ?_⟩
  · rw [names_append, List.mem_append] at hx
    exact hx.elim (h.names x) (h'.names x)
  · rw [replay_append, ← h.values hopen, h'.values (h.isOpen hopen)]

theorem mono (h : Recorded frames names W deeds W₁) (hnames : ∀ x ∈ names, x ∈ names') :
    Recorded frames names' W deeds W₁ :=
  ⟨fun x hx => hnames x (h.names x hx), h.isOpen, h.values⟩

/-- What runs without an assignment of its own. -/
theorem of_leads (h : W.Leads .nothing W₁) : Recorded frames names W [] W₁ :=
  ⟨nofun, fun hopen => (ownValue?_of_leads hopen h).1,
    fun hopen x => congrFun (ownValue?_of_leads hopen h).2 x⟩

theorem found (h : Recorded frames names W [] W₁) (v : Value) :
    Recorded frames names W [.found v] W₁ := ⟨nofun, h.isOpen, h.values⟩

theorem bound {x : String} {v : Value} (hx : x ∈ names)
    (h : assignName frames x v W = .ok () W₁) : Recorded frames names W [.bound x v] W₁ := by
  refine ⟨fun y hy => ?_, fun hopen => (ownValue?_assignName hopen h).1,
    fun hopen => (ownValue?_assignName hopen h).2⟩
  rw [List.mem_singleton.mp hy]
  exact hx

end Recorded

section Record

variable {depth : Nat} {frames : List Nat} {names : List String} {W W' : World} {v : Value}
  {signal : Signal} {deeds : List Deed}

theorem recorded_eval {e : Expr} (h : eval (upTo depth) frames e W = .ok v W') :
    Recorded frames names W [] W' := by
  have hleads := eval_leads depth frames e W
  rw [Exec.after, h] at hleads
  exact .of_leads hleads

theorem recorded_truth {b : Bool} (h : Exec.truth v W = .ok b W') :
    Recorded frames names W [] W' := by
  obtain ⟨-, rfl⟩ := EStateM.Result.ok.inj h
  exact .nil W

theorem recorded_newFunction {name : String} {params : List String} {rest : Option String}
    {body : List Stmt} (h : newFunction frames name params rest body W = .ok v W') :
    Recorded frames names W [] W' := by
  have hnew : Veil.nothing.Insulated .nothing (newFunction frames name params rest body) _ :=
    newFunction_insulated name params rest (Veil.nothing_spares _ _)
  have hleads := hnew.leads (Veil.nothing_good W)
  rw [Exec.after, h] at hleads
  exact .of_leads hleads

/-- One round after the other. -/
theorem recorded_rounds {test : Exec Value} {body : Exec (Signal × List Deed)}
    (htest : ∀ W v W', test W = .ok v W' → Recorded frames names W [] W')
    (hbody : ∀ W signal deeds W', body W = .ok (signal, deeds) W' →
      Recorded frames names W deeds W') :
    ∀ (left : Nat) {W W' : World} {signal : Signal} {deeds : List Deed},
      traceRounds test body left W = .ok (signal, deeds) W' → Recorded frames names W deeds W'
  | 0, W, W', signal, deeds, h => by
    simp only [traceRounds, Exec.bind_ok_iff] at h
    obtain ⟨v, W₁, hv, b, W₂, hb, h⟩ := h
    have hstart := (htest _ _ _ hv).append (recorded_truth hb)
    cases b with
    | true => cases h
    | false =>
      obtain ⟨heq, rfl⟩ := Exec.pure_ok_iff.mp h
      cases heq
      exact hstart.found v
  | left + 1, W, W', signal, deeds, h => by
    simp only [traceRounds, Exec.bind_ok_iff] at h
    obtain ⟨v, W₁, hv, b, W₂, hb, h⟩ := h
    have hstart := ((htest _ _ _ hv).append (recorded_truth hb)).found v
    cases b with
    | false =>
      obtain ⟨heq, rfl⟩ := Exec.pure_ok_iff.mp h
      cases heq
      exact hstart
    | true =>
      simp only [if_true, Exec.bind_ok_iff] at h
      obtain ⟨⟨signal₁, deeds₁⟩, W₃, hrun, h⟩ := h
      have hround := hstart.append (hbody _ _ _ _ hrun)
      cases signal₁ with
      | returned value =>
        obtain ⟨heq, rfl⟩ := Exec.pure_ok_iff.mp h
        cases heq
        exact hround
      | done | next =>
        simp only [Exec.bind_ok_iff] at h
        obtain ⟨⟨signal₂, deeds₂⟩, W₄, hrest, h⟩ := h
        obtain ⟨heq, rfl⟩ := Exec.pure_ok_iff.mp h
        cases heq
        exact hround.append (recorded_rounds htest hbody left hrest)

end Record

mutual

/-- **The record tells the truth**: after the run of a statement, every variable of the first frame
has the value that replaying its deeds gives. -/
theorem recorded_trace (depth : Nat) (frames : List Nat) :
    ∀ (s : Stmt) {W W' : World} {signal : Signal} {deeds : List Deed},
      trace (upTo depth) frames s W = .ok (signal, deeds) W' →
      Recorded frames s.assigned W deeds W'
  | .assign target value _, W, W', signal, deeds, h => by
    simp only [trace, Exec.bind_ok_iff] at h
    obtain ⟨v, W₁, hv, _, W₂, hassign, h⟩ := h
    obtain ⟨heq, rfl⟩ := Exec.pure_ok_iff.mp h
    cases heq
    exact (recorded_eval hv).append (.bound List.mem_cons_self hassign)
  | .eval value _, W, W', signal, deeds, h => by
    simp only [trace, Exec.bind_ok_iff] at h
    obtain ⟨v, W₁, hv, h⟩ := h
    obtain ⟨heq, rfl⟩ := Exec.pure_ok_iff.mp h
    cases heq
    exact (recorded_eval hv).found v
  | .ret value _, W, W', signal, deeds, h => by
    simp only [trace, Exec.bind_ok_iff] at h
    obtain ⟨v, W₁, hv, h⟩ := h
    obtain ⟨heq, rfl⟩ := Exec.pure_ok_iff.mp h
    cases heq
    exact (recorded_eval hv).found v
  | .branch test yes no place, W, W', signal, deeds, h => by
    simp only [trace, Exec.bind_ok_iff] at h
    obtain ⟨v, W₁, hv, b, W₂, hb, h⟩ := h
    have hstart : Recorded frames (Stmt.branch test yes no place).assigned W [.found v] W₂ :=
      ((recorded_eval hv).append (recorded_truth hb)).found v
    cases b with
    | true =>
      simp only [if_true, Exec.bind_ok_iff] at h
      obtain ⟨⟨signal₁, deeds₁⟩, W₃, harm, h⟩ := h
      obtain ⟨heq, rfl⟩ := Exec.pure_ok_iff.mp h
      cases heq
      exact hstart.append ((recorded_traceAll depth frames yes harm).mono fun x hx =>
        List.mem_append.mpr (.inl hx))
    | false =>
      simp only [Bool.false_eq_true, if_false, Exec.bind_ok_iff] at h
      obtain ⟨⟨signal₁, deeds₁⟩, W₃, harm, h⟩ := h
      obtain ⟨heq, rfl⟩ := Exec.pure_ok_iff.mp h
      cases heq
      exact hstart.append ((recorded_traceAll depth frames no harm).mono fun x hx =>
        List.mem_append.mpr (.inr hx))
  | .loop test body _, W, W', signal, deeds, h =>
    recorded_rounds (fun _ _ _ hv => recorded_eval hv)
      (fun _ _ _ _ hround => recorded_traceAll depth frames body hround) _ h
  | .define name params rest body _, W, W', signal, deeds, h => by
    simp only [trace, Exec.bind_ok_iff] at h
    obtain ⟨v, W₁, hv, _, W₂, hassign, h⟩ := h
    obtain ⟨heq, rfl⟩ := Exec.pure_ok_iff.mp h
    cases heq
    exact (recorded_newFunction hv).append (.bound List.mem_cons_self hassign)
  | .skip _, W, W', signal, deeds, h => by
    obtain ⟨heq, rfl⟩ := Exec.pure_ok_iff.mp h
    cases heq
    exact .nil W
  | .next _, W, W', signal, deeds, h => by
    obtain ⟨heq, rfl⟩ := Exec.pure_ok_iff.mp h
    cases heq
    exact .nil W

theorem recorded_traceAll (depth : Nat) (frames : List Nat) :
    ∀ (ss : List Stmt) {W W' : World} {signal : Signal} {deeds : List Deed},
      traceAll (upTo depth) frames ss W = .ok (signal, deeds) W' →
      Recorded frames (Stmt.assignedOfAll ss) W deeds W'
  | [], W, W', signal, deeds, h => by
    obtain ⟨heq, rfl⟩ := Exec.pure_ok_iff.mp h
    cases heq
    exact .nil W
  | s :: ss, W, W', signal, deeds, h => by
    simp only [traceAll, Exec.bind_ok_iff] at h
    obtain ⟨⟨signal₁, deeds₁⟩, W₁, hs, h⟩ := h
    have hfirst : Recorded frames (Stmt.assignedOfAll (s :: ss)) W deeds₁ W₁ :=
      (recorded_trace depth frames s hs).mono fun x hx => List.mem_append.mpr (.inl hx)
    cases signal₁ with
    | done =>
      simp only [Exec.bind_ok_iff] at h
      obtain ⟨⟨signal₂, deeds₂⟩, W₂, hrest, h⟩ := h
      obtain ⟨heq, rfl⟩ := Exec.pure_ok_iff.mp h
      cases heq
      exact hfirst.append ((recorded_traceAll depth frames ss hrest).mono fun x hx =>
        List.mem_append.mpr (.inr hx))
    | next | returned _ =>
      obtain ⟨heq, rfl⟩ := Exec.pure_ok_iff.mp h
      cases heq
      exact hfirst

end

/-! ### How statements end -/

/-- A loop whose passes end or go on comes to its own end. -/
theorem rounds_done {test : Exec Bool} {body : Exec Signal}
    (hbody : ∀ W signal W', body W = .ok signal W' → signal = .done ∨ signal = .next) :
    ∀ (left : Nat) {W W' : World} {signal : Signal},
      rounds test body left W = .ok signal W' → signal = .done
  | 0, W, W', signal, h => by
    simp only [rounds, Exec.bind_ok_iff] at h
    obtain ⟨b, W₁, -, h⟩ := h
    cases b with
    | true => cases h
    | false => exact (Exec.pure_ok_iff.mp h).1.symm
  | left + 1, W, W', signal, h => by
    simp only [rounds, Exec.bind_ok_iff] at h
    obtain ⟨b, W₁, -, h⟩ := h
    cases b with
    | false => exact (Exec.pure_ok_iff.mp h).1.symm
    | true =>
      simp only [if_true, Exec.bind_ok_iff] at h
      obtain ⟨signal₁, W₂, hround, h⟩ := h
      rcases hbody _ _ _ hround with rfl | rfl
      · exact rounds_done hbody left h
      · exact rounds_done hbody left h

mutual

/-- A statement without `return` leaves its block only to begin the next round of a loop around
it. -/
theorem exec_signal (self : Interp) (frames : List Nat) :
    ∀ (s : Stmt) {inLoop : Bool} {W W' : World} {signal : Signal}, s.stays inLoop = true →
      exec self frames s W = .ok signal W' → signal = .done ∨ signal = .next ∧ inLoop = true
  | .assign _ _ _, _, _, _, _, _, h => by
    simp only [exec, Exec.bind_ok_iff] at h
    obtain ⟨_, _, _, _, _, _, h⟩ := h
    exact .inl (Exec.pure_ok_iff.mp h).1.symm
  | .eval _ _, _, _, _, _, _, h => by
    simp only [exec, Exec.bind_ok_iff] at h
    obtain ⟨_, _, _, h⟩ := h
    exact .inl (Exec.pure_ok_iff.mp h).1.symm
  | .ret _ _, _, _, _, _, hstays, _ => by cases hstays
  | .branch test yes no _, _, _, _, _, hstays, h => by
    simp only [exec, Exec.bind_ok_iff] at h
    obtain ⟨_, _, _, b, _, _, h⟩ := h
    simp only [Stmt.stays, Bool.and_eq_true] at hstays
    cases b with
    | true => exact execAll_signal self frames yes hstays.1 h
    | false => exact execAll_signal self frames no hstays.2 h
  | .loop test body _, _, _, _, _, hstays, h => by
    refine .inl (rounds_done (fun _ _ _ hround => ?_) _ h)
    exact (execAll_signal self frames body hstays hround).imp_right And.left
  | .define _ _ _ _ _, _, _, _, _, _, h => by
    simp only [exec, Exec.bind_ok_iff] at h
    obtain ⟨_, _, _, _, _, _, h⟩ := h
    exact .inl (Exec.pure_ok_iff.mp h).1.symm
  | .skip _, _, _, _, _, _, h => .inl (Exec.pure_ok_iff.mp h).1.symm
  | .next _, _, _, _, _, hstays, h => .inr ⟨(Exec.pure_ok_iff.mp h).1.symm, hstays⟩

theorem execAll_signal (self : Interp) (frames : List Nat) :
    ∀ (ss : List Stmt) {inLoop : Bool} {W W' : World} {signal : Signal},
      Stmt.allStay inLoop ss = true → execAll self frames ss W = .ok signal W' →
      signal = .done ∨ signal = .next ∧ inLoop = true
  | [], _, _, _, _, _, h => .inl (Exec.pure_ok_iff.mp h).1.symm
  | s :: ss, _, _, _, _, hstay, h => by
    simp only [execAll, Exec.bind_ok_iff] at h
    obtain ⟨signal₁, _, hs, h⟩ := h
    simp only [Stmt.allStay, Bool.and_eq_true] at hstay
    rcases exec_signal self frames s hstay.1 hs with rfl | ⟨rfl, hloop⟩
    · exact execAll_signal self frames ss hstay.2 h
    · exact .inr ⟨(Exec.pure_ok_iff.mp h).1.symm, hloop⟩

end

end Interp

end TailLisp
