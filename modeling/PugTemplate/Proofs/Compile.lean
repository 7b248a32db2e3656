import PugTemplate.Compile
import PugTemplate.Proofs.Node.Productions
import PugTemplate.Proofs.Program.Refusals
import PugTemplate.Proofs.Token.Progress
import PugTemplate.Proofs.Token.Runs
/-!
# Failures of a compilation

Whatever is wrong with a template, the diagnostic names its file and one of its lines, however far
the compilation has come by then.
-/

namespace PugTemplate

open Text
namespace Compiler

variable {c : Compiler} (file : Option String) (source : String)

theorem ready_lex (hp : c.plugins = {}) (hv : c.validator.StaysInside) :
    Yields (c.lex file source) (Ready (·.InLines (splitLines (normalize source)).length))
      fun d => d.PointsInto file (·.InLines (splitLines (normalize source)).length) := by
  have hpl := (yields_tokenize file c.validator source).and finished_tokenize
  unfold lex
  rw [hp]
  refine hpl.mono (fun tokens ht => ?_) fun d hd => ⟨hd.1, hd.2.1, hd.2.2 hv⟩
  obtain ⟨last, front, hen, hl, -⟩ := ht.2.ends
  exact ⟨⟨last, List.mem_reverse.mp (hen ▸ List.mem_cons_self), hl⟩, ht.1⟩

theorem located_parse (hp : c.plugins = {}) (hv : c.validator.StaysInside) :
    Yields (c.parse file source) (fun root => Throughout
        (Node.IsIn file (·.InLines (splitLines (normalize source)).length)) root.nodes)
      fun d => d.PointsInto file (·.InLines (splitLines (normalize source)).length) := by
  refine (ready_lex file source hp hv).bind fun tokens ht => ?_
  rw [hp]
  exact yields_ofTokens file ht

end Compiler

/-- **Every failure of a compilation is located in the template.** Without extensions, and with a
validator whose faults are inside of the expressions that it refuses, a diagnostic names the file of
the template and one of its lines. -/
theorem compile_error_located (c : Compiler) (options : CompileOptions) (source : String)
    (hplugins : c.plugins = {}) (hvalidator : c.validator.StaysInside) {d : Diagnostic}
    (h : c.compile options source = .error d) :
    d.category ≠ .endOfStream ∧ d.file = options.file ∧ 1 ≤ d.position.column ∧
      1 ≤ d.position.line ∧
      d.position.line ≤ (Text.splitLines (normalize source)).length := by
  have hcompile : Yields (c.compile options source) (fun _ => True) fun d =>
      d.PointsInto options.file (·.InLines (Text.splitLines (normalize source)).length) :=
    (c.located_parse options.file source hplugins hvalidator).bind fun root hroot =>
      Program.yields_generate c.evaluator root.mixinUse options.program hroot
  obtain ⟨hfile, hcategory, hposition⟩ := hcompile.of_error h
  exact ⟨hcategory, hfile, hposition.column, hposition.first, hposition.last⟩

/-- A validator that refuses all expressions on two lines, and blames the second line. -/
theorem compile_error_located_second_line :
    let validator : Validator := fun source =>
      if source.toList.count '\n' = 1 then some { message := "bad", line := 1, column := 3 }
      else none
    let c : Compiler := { parser := fun _ => none, validator }
    let source := "p\n  a(\n  b=[x,\n y])"
    ∃ d, c.validator.StaysInside ∧ c.compile { file := some "a.pug" } source = .error d ∧
      d.category ≠ .endOfStream ∧ d.file = some "a.pug" ∧ 1 ≤ d.position.column ∧
      1 ≤ d.position.line ∧ d.position.line ≤ (Text.splitLines (normalize source)).length := by
  intro validator c source
  have hvalidator : c.validator.StaysInside := by
    intro text fault h
    obtain ⟨hlines, hfault⟩ := Option.ite_none_right_eq_some.mp h
    obtain rfl := Option.some.inj hfault
    rw [length_splitLines, hlines]
    exact Nat.one_lt_two
  have hfails : c.compile { file := some "a.pug" } source = .error
      { cause := .badExpression "bad", position := { line := 4, column := 4 }
        file := some "a.pug" } := by decide +kernel
  exact ⟨_, hvalidator, hfails,
    compile_error_located c { file := some "a.pug" } source rfl hvalidator hfails⟩

end PugTemplate
