import Mathlib.Data.List.Nodup
import TailLisp.Program
import TailLisp.Proofs.Balance

/-!
# TailLisp.Proofs.Temporaries

**No temporary is made twice.** A temporary is a prefix, a stem and a number run together. The
prefix may be any text, and the stem may hold any name of the source, so with other stems two
temporaries could coincide: `x1` with the number 1 and `x` with the number 11. Lowering calls
`Compile.fresh` with stems that end in an underscore only (`Context.Supplied`), and then the number
of the call can be read off the name that it returns (`Compile.mapM_fresh_numbers`).

`Compile.fresh` notes in the context what it returns, which no step looks at. A compilation that
ends in a fault has made temporaries too. The statement is therefore about the context that a
compilation ends in either way (`Compile.ending`).
-/

namespace TailLisp

namespace Compile

variable {α : Type}

/-- What calls of `fresh` return has the numbers after those given out before, in order. -/
theorem mapM_fresh_numbers {stems temps : List String} {c c' : Context}
    (h : (stems.map (· ++ "_")).mapM fresh c = .ok temps c') :
    temps.map (tempNumber? c.tempPrefix) =
      (List.range' (c.counter + 1) stems.length).map some := by
  induction stems generalizing c temps with
  | nil =>
    cases h
    rfl
  | cons stem stems ih =>
    rw [List.map_cons, List.mapM_cons] at h
    obtain ⟨temp, c₁, hfresh, htail⟩ := bind_ok h
    obtain ⟨rest, c₂, hrest, hend⟩ := bind_ok htail
    obtain ⟨rfl, rfl⟩ := pure_ok hend
    cases hfresh
    -- the stem ends in an underscore, so the digits behind it are the number of the call
    rw [List.map_cons, tempNumber?_temp, List.length_cons, List.range'_succ, List.map_cons]
    exact congrArg _ (ih hrest)

/-- The context that a step ends in, with a result or with a fault. -/
def ending (step : Compile α) (ctx : Context) : Context :=
  match step.run ctx with
  | .ok _ ctx => ctx
  | .error _ ctx => ctx

/-- The temporaries stay those of calls of `fresh`, also if the step ends in a fault. -/
theorem Keeps.supplied_ending {view : List Scope → List Scope} {m : Compile α} (hm : Keeps view m)
    {p : String} {c : Context} (hc : c.Supplied p) : (m.ending c).Supplied p := by
  unfold ending
  split
  · rename_i hrun
    exact (hm.grows hrun).supplied hc
  · rename_i hrun
    exact hm.supplied hrun hc

end Compile

/-- What the supply has given out is pairwise distinct. -/
theorem Context.Supplied.nodup {p : String} {c : Context} (h : c.Supplied p) :
    c.temps.Nodup := by
  obtain ⟨stems, c', hrun, -⟩ := h
  refine List.nodup_reverse.mp (List.Nodup.of_map (tempNumber? p) ?_)
  rw [Compile.mapM_fresh_numbers hrun]
  exact (List.nodup_range' ..).map fun _ _ => Option.some.inj

namespace Program

open Compile

theorem lower_keeps (file : String) (forms : List Form) : Keeps id (lower file forms) :=
  .bind (Lowering.stmts_keeps (Lowering.upTo_balanced _) forms) fun _ =>
    .bind (.report _) fun _ => .pure _

/-- Reading and expanding a source ends in a fault of the reader or the macros, or reports. -/
theorem forms_cases (options : Options) (source : String) (c : Context) :
    (∃ fault, forms options source c = .error fault c ∧
      (Form.readAll source = .error fault ∨
        ∃ read, Macro.expandAll Macro.standard options.maxDepth read = .error fault)) ∨
    ∃ made event, forms options source c = .ok made (c.report event) := by
  unfold forms
  cases Form.readAll source with
  | error fault => exact .inl ⟨fault, rfl, .inl rfl⟩
  | ok read =>
    cases hexpand : Macro.expandAll Macro.standard options.maxDepth read with
    | error fault =>
      refine .inl ⟨fault, ?_, .inr ⟨read, hexpand⟩⟩
      simp only [lift, pure_bind, hexpand]
      rfl
    | ok made =>
      refine .inr ⟨made, .expandedMacros made.length, ?_⟩
      simp only [lift, pure_bind, hexpand]
      rfl

/-- The context in which the compilation of a source text ends, with a program or with a fault. Of
it `compile` shows what was reported. -/
def ending (options : Options) (file source : String) : Context :=
  Compile.ending (do lower file (← forms options source)) options.context

/-- All temporaries of a compilation come from calls of `fresh`, with a number for each. -/
theorem ending_supplied (options : Options) (file source : String) :
    (ending options file source).Supplied options.tempPrefix := by
  -- there are no temporaries at the beginning, and reading makes none
  have hstart : options.context.Supplied options.tempPrefix := ⟨[], _, rfl, rfl, rfl⟩
  rcases forms_cases options source options.context with ⟨fault, hforms, -⟩ | ⟨made, event, hforms⟩
  · have hending : ending options file source = options.context := by
      simp only [ending, Compile.ending, EStateM.run, Bind.bind, EStateM.bind, hforms]
    rw [hending]
    exact hstart
  · have hending : ending options file source =
        Compile.ending (lower file made) (options.context.report event) := by
      simp only [ending, Compile.ending, EStateM.run, Bind.bind, EStateM.bind, hforms]
    rw [hending]
    exact (lower_keeps file made).supplied_ending hstart

/-- **The temporaries of a compilation are pairwise distinct**, for every source text and every
prefix. Each call of `Compile.fresh` notes the name that it returns. What is noted at the end of a
compilation is what such calls return for some stems, one after the other from its beginning, and
no name is among it twice. -/
theorem temporaries_distinct (options : Options) (file source : String) :
    (∀ stem c, ∃ temp c', Compile.fresh stem c = .ok temp c' ∧ c'.temps = temp :: c.temps) ∧
    (∃ stems c', List.mapM Compile.fresh stems options.context =
        .ok (ending options file source).temps.reverse c' ∧
      c'.counter = (ending options file source).counter) ∧
    (ending options file source).temps.Nodup := by
  refine ⟨fun stem c => ⟨_, _, rfl, rfl⟩, ?_, (ending_supplied options file source).nodup⟩
  obtain ⟨stems, c', hrun, -, hcounter⟩ := ending_supplied options file source
  exact ⟨_, c', hrun, hcounter⟩

/-- A prefix that ends in a digit, and names that end in an underscore or in a number; the last form
is a fault. -/
example : (ending { tempPrefix := "t1" } "names"
      "(let [x 0 x_ 1 x_1 2] (do x_1 (fn [[a]] a))) (recur)").temps =
    ["t1destructure_6", "t1arg_5", "t1fn_4", "t1x_1_3", "t1x__2", "t1x_1"] := by
  decide +kernel

end Program

end TailLisp
