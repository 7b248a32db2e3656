import PugTemplate.Proofs.Program.Segments
import PugTemplate.Proofs.Script.Addition
/-!
# Merged statements

Writes that follow each other share one statement. The statements are run here as scripts run them,
and compared with one statement for each write. Adding segments to the result one at a time joins
their texts. Segments in parentheses are added to each other before they reach the result, and there
two expressions in front may be added as numbers.
-/

namespace PugTemplate

open List
namespace Program

open Script (Primitive)

/-! ## Statements as scripts read them -/

/-- A term of a sum: one segment, or segments that are added up in parentheses. -/
inductive Operand where
  | segment (segment : Segment)
  | group (segments : List Segment)
  deriving DecidableEq, Repr

def Operand.code : Operand → String
  | .segment s => s.operand
  | .group segments => "(" ++ String.intercalate " + " (segments.map Segment.operand) ++ ")"

/-- One statement: a sum that is added to the result, or anything else. -/
inductive Line where
  | raw (code : String)
  | assign (operands : List Operand)
  deriving DecidableEq, Repr

def Line.code : Line → String
  | .raw code => code
  | .assign operands =>
    "pug_html = pug_html + " ++ String.intercalate " + " (operands.map Operand.code) ++ ";"

def Statement.line : Statement → Line
  | .raw code => .raw code
  | .write segments =>
    match segments with
    | .code _ :: _ :: _ => .assign [.group segments.reverse]
    | _ => .assign (segments.reverse.map .segment)

def Segmented.program (out : Segmented) : List Line := out.reverse.map Statement.line

/-- The statement that makes one write and no other. -/
def Write.alone : Write → Line
  | .text content => .assign [.segment (.text content)]
  | .expression source => .assign [.segment (.code source)]
  | .choice subject => .raw (choiceCode subject)
  | .branch value => .raw (branchCode value)
  | .statement code => .raw code

theorem Statement.code_line (s : Statement) : s.line.code = s.code := by
  have hp (segments : List Segment) :
      (segments.map Operand.segment).map Operand.code = segments.map Segment.operand := by
    rw [map_map]
    rfl
  have hg (sum : String) : "pug_html = pug_html + " ++ ("(" ++ sum ++ ")") ++ ";" =
      "pug_html = pug_html + (" ++ sum ++ ");" := by
    have ho : "pug_html = pug_html + " ++ "(" = "pug_html = pug_html + (" := rfl
    have hc : ")" ++ ";" = ");" := rfl
    rw [← String.append_assoc, ← String.append_assoc, ho, String.append_assoc, hc]
  cases s with
  | raw code => rfl
  | write segments =>
    match segments with
    | [] => rfl
    | [.code e] => rfl
    | .text t :: rest =>
      exact congrArg (fun operands =>
        "pug_html = pug_html + " ++ String.intercalate " + " operands ++ ";") (hp _)
    | .code e :: s :: rest => exact hg _

theorem Segmented.map_code_program (out : Segmented) : out.program.map Line.code = out.lines := by
  simp [program, lines, Function.comp_def, Statement.code_line]

/-! ## Runs -/

/-- The values that expressions have when they are reached, by how many were reached before and by
source. -/
abbrev Oracle := Nat → String → Primitive

/-- The result so far, and how many expressions have been reached. -/
structure Machine where
  html : Primitive := .string ""
  reached : Nat := 0
  deriving DecidableEq, Repr

/-- The value of a segment after so many expressions. -/
def Segment.value (oracle : Oracle) (reached : Nat) : Segment → Primitive
  | .text content => .string content
  | .code source => oracle reached source

def Segment.reads : Segment → Nat
  | .text _ => 0
  | .code _ => 1

namespace Machine

def addSegment (oracle : Oracle) (m : Machine) (s : Segment) : Machine :=
  ⟨m.html.plus (s.value oracle m.reached), m.reached + s.reads⟩

/-- Adds the value of a term. The first segment of a group is where its sum starts. -/
def addOperand (oracle : Oracle) (m : Machine) : Operand → Machine
  | .segment s => m.addSegment oracle s
  | .group [] => m
  | .group (s :: rest) =>
    let sum := rest.foldl (addSegment oracle) ⟨s.value oracle m.reached, m.reached + s.reads⟩
    ⟨m.html.plus sum.html, sum.reached⟩

/-- Runs a statement. What is no write leaves the result alone. -/
def step (oracle : Oracle) (m : Machine) : Line → Machine
  | .raw _ => m
  | .assign operands => operands.foldl (addOperand oracle) m

end Machine

def run (oracle : Oracle) (lines : List Line) : Machine := lines.foldl (Machine.step oracle) {}

/-- Two expressions in front of a group, whose values are added to each other first. -/
def Line.opensWithSum : Line → Bool
  | .assign [.group (.code _ :: .code _ :: _)] => true
  | _ => false

/-- Two values in front of a group of which neither is a string. -/
def Line.addsNumbers (oracle : Oracle) (m : Machine) : Line → Bool
  | .assign [.group (s :: t :: _)] =>
    !((s.value oracle m.reached).isString || (t.value oracle (m.reached + s.reads)).isString)
  | _ => false

theorem Line.opensWithSum_of_addsNumbers {oracle : Oracle} {m : Machine} {l : Line}
    (h : l.addsNumbers oracle m) : l.opensWithSum := by
  unfold addsNumbers at h
  split at h
  · next s t rest =>
    cases s with
    | text x => exact absurd h (by simp [Segment.value, Primitive.isString])
    | code e =>
      cases t with
      | text x => exact absurd h (by simp [Segment.value, Primitive.isString])
      | code e' => rfl
  · exact absurd h (by simp)

/-! ## Segments in turn -/

section Runs

variable (oracle : Oracle)

/-- Adds the segments of a statement one at a time. -/
def Statement.inTurn (m : Machine) : Statement → Machine
  | .raw _ => m
  | .write segments => segments.reverse.foldl (Machine.addSegment oracle) m

/-- Adds the segments of all statements one at a time. -/
def Segmented.inTurn : Segmented → Machine
  | [] => {}
  | s :: before => s.inTurn oracle (inTurn before)

theorem Machine.addSegment_text_text (m : Machine) (a b : String) :
    (m.addSegment oracle (.text a)).addSegment oracle (.text b) =
      m.addSegment oracle (.text (a ++ b)) := by
  simp [addSegment, Segment.value, Segment.reads, Primitive.text, String.append_assoc]

theorem Statement.inTurn_addText (m : Machine) (text : String) (segments : List Segment) :
    inTurn oracle m (.write (addText text segments)) =
      (inTurn oracle m (.write segments)).addSegment oracle (.text text) := by
  cases segments with
  | nil => rfl
  | cons s rest =>
    cases s with
    | text before => simp [inTurn, addText, Machine.addSegment_text_text]
    | code e => simp [inTurn, addText]

theorem Segmented.inTurn_add (out : Segmented) (w : Write) :
    inTurn oracle (out.add w) = (inTurn oracle out).step oracle w.alone := by
  cases w with
  | choice subject => rfl
  | branch value => rfl
  | statement code => rfl
  | text text =>
    match out with
    | [] => rfl
    | .raw code :: rest => rfl
    | .write segments :: rest =>
      simp only [add, addText]
      split
      · exact Statement.inTurn_addText oracle _ text segments
      · rfl
  | expression source =>
    match out with
    | [] => rfl
    | .raw code :: rest => rfl
    | .write segments :: rest =>
      simp only [add, addExpression]
      split
      · simp only [inTurn, Statement.inTurn, reverse_cons, foldl_append]
        rfl
      · rfl

theorem Segmented.inTurn_ofWrites (writes : List Write) :
    inTurn oracle (ofWrites writes) = run oracle (writes.map Write.alone) := by
  have h (out : Segmented) : inTurn oracle (writes.foldl add out) =
      (writes.map Write.alone).foldl (Machine.step oracle) (inTurn oracle out) := by
    induction writes generalizing out with
    | nil => rfl
    | cons w rest ih => rw [foldl_cons, ih, inTurn_add]; rfl
  exact h []

/-! ## Groups -/

theorem Machine.foldl_addSegment_string (front text : String) (n : Nat) (segments : List Segment) :
    segments.foldl (addSegment oracle) ⟨.string (front ++ text), n⟩ =
      let sum := segments.foldl (addSegment oracle) ⟨.string text, n⟩
      ⟨.plus (.string front) sum.html, sum.reached⟩ := by
  induction segments generalizing text n with
  | nil => rfl
  | cons s rest ih =>
    have hs : addSegment oracle ⟨.string (front ++ text), n⟩ s =
        ⟨.string (front ++ (text ++ (s.value oracle n).text)), n + s.reads⟩ := by
      simp [addSegment, String.append_assoc]
    rw [foldl_cons, hs, ih]
    rfl

theorem Machine.isString_step {m : Machine} (hm : m.html.isString) (l : Line) :
    (m.step oracle l).html.isString := by
  have ho (m : Machine) (hm : m.html.isString) (o : Operand) :
      (m.addOperand oracle o).html.isString := by
    obtain ⟨html, n⟩ := m
    cases html with
    | string h =>
      match o with
      | .segment s => rfl
      | .group [] => rfl
      | .group (s :: rest) => rfl
    | _ => exact absurd hm (by simp [Primitive.isString])
  cases l with
  | raw code => exact hm
  | assign operands =>
    induction operands generalizing m with
    | nil => exact hm
    | cons o rest ih => exact ih (ho m hm o)

/-- **One statement** adds its segments in turn, unless it adds numbers first. -/
theorem Statement.step_line {m : Machine} (hm : m.html.isString) (s : Statement)
    (hsu : s.line.addsNumbers oracle m = false) :
    m.step oracle s.line = s.inTurn oracle m := by
  obtain ⟨html, n⟩ := m
  cases s with
  | raw code => rfl
  | write segments =>
    match segments with
    | [] => rfl
    | [.code e] => rfl
    | .text t :: rest =>
      -- no parentheses where a text comes last: the sum is read from the left
      simp only [line, inTurn, Machine.step, foldl_map]
      rfl
    | .code e :: s :: rest =>
      simp only [line, inTurn] at hsu ⊢
      -- the group has two segments in front, since it has two at its end
      have hl : 2 ≤ (Segment.code e :: s :: rest).reverse.length := by simp
      match hs : (Segment.code e :: s :: rest).reverse with
      | [] | [_] => simp [hs] at hl
      | a :: b :: more =>
        rw [hs] at hsu
        simp only [Line.addsNumbers, Bool.not_eq_false'] at hsu
        cases html with
        | string h =>
          have ha := Primitive.plus_of_isString hsu
          have hj := Machine.foldl_addSegment_string oracle h
            ((a.value oracle n).text ++ (b.value oracle (n + a.reads)).text)
            (n + a.reads + b.reads) more
          simp only [Machine.step, Machine.addOperand, foldl_cons, foldl_nil,
            Machine.addSegment, ha, Primitive.plus_string_left, String.append_assoc] at hj ⊢
          exact hj.symm
        | _ => exact absurd hm (by simp [Primitive.isString])

theorem Segmented.run_program_cons (s : Statement) (before : Segmented) :
    run oracle (Segmented.program (s :: before)) = (run oracle before.program).step oracle s.line := by
  simp [run, program]

theorem isString_run (lines : List Line) : (run oracle lines).html.isString := by
  have h (m : Machine) (hm : m.html.isString) :
      (lines.foldl (Machine.step oracle) m).html.isString := by
    induction lines generalizing m with
    | nil => exact hm
    | cons l rest ih => exact ih _ (Machine.isString_step oracle hm l)
  exact h {} rfl

/-- **All statements** add their segments in turn, if none adds numbers first. -/
theorem Segmented.run_program (out : Segmented)
    (hs : ∀ before l behind, out.program = before ++ l :: behind →
      l.addsNumbers oracle (run oracle before) = false) :
    run oracle out.program = out.inTurn oracle := by
  induction out with
  | nil => rfl
  | cons s before ih =>
    have hp : program (s :: before) = program before ++ [s.line] := by simp [program]
    have hl := hs (program before) s.line [] hp
    have hb := ih fun first l behind h =>
      hs first l (behind ++ [s.line]) (by rw [hp, h]; simp)
    rw [run_program_cons, Statement.step_line oracle (isString_run oracle _) s hl, hb]
    rfl

end Runs

/-! ## Sums that lose text -/

/-- Every expression has the value of an undefined computation. The sum of two such values is no
longer than one of them. -/
def Oracle.undefined : Oracle := fun _ _ => .number .nan

/-- The length of the text that a segment adds by itself, when no expression is defined. -/
def Segment.size : Segment → Nat
  | .text content => content.length
  | .code _ => (Script.Numeral.text .nan).length

/-- The length of the text that segments add in turn. -/
def Segment.sizes : List Segment → Nat
  | [] => 0
  | s :: rest => s.size + sizes rest

def Machine.length (m : Machine) : Nat := m.html.text.length

/-- The result of adding undefined values and texts to each other. -/
def Machine.IsMixed (m : Machine) : Prop := m.html.isString = true ∨ m.html = .number .nan

namespace Machine

variable {m : Machine}

theorem length_addSegment (hm : m.html.isString) (s : Segment) :
    (m.addSegment .undefined s).html.isString ∧
      (m.addSegment .undefined s).length = m.length + s.size := by
  obtain ⟨html, n⟩ := m
  cases html with
  | string h =>
    cases s with
    | text content | code e => exact ⟨rfl, String.length_append ..⟩
  | _ => exact absurd hm (by simp [Primitive.isString])

theorem length_foldl_addSegment (hm : m.html.isString) (segments : List Segment) :
    (segments.foldl (addSegment .undefined) m).html.isString ∧
      (segments.foldl (addSegment .undefined) m).length = m.length + Segment.sizes segments := by
  induction segments generalizing m with
  | nil => exact ⟨hm, rfl⟩
  | cons s rest ih =>
    obtain ⟨hs, hl⟩ := length_addSegment hm s
    obtain ⟨hs', hl'⟩ := ih hs
    refine ⟨hs', ?_⟩
    rw [foldl_cons, hl', hl, Segment.sizes, Nat.add_assoc]

theorem length_addSegment_le (hm : m.IsMixed) (s : Segment) : (m.addSegment .undefined s).IsMixed ∧
      (m.addSegment .undefined s).length ≤ m.length + s.size := by
  rcases hm with hm | hm
  · obtain ⟨hs, hl⟩ := length_addSegment hm s
    exact ⟨.inl hs, Nat.le_of_eq hl⟩
  · obtain ⟨html, n⟩ := m
    subst hm
    cases s with
    | text content => exact ⟨.inl rfl, Nat.le_of_eq (String.length_append ..)⟩
    | code e => exact ⟨.inr rfl, Nat.le_add_right ..⟩

theorem length_foldl_addSegment_le (hm : m.IsMixed) (segments : List Segment) :
    (segments.foldl (addSegment .undefined) m).length ≤ m.length + Segment.sizes segments := by
  induction segments generalizing m with
  | nil => exact Nat.le_refl _
  | cons s rest ih =>
    obtain ⟨hmi, hl⟩ := length_addSegment_le hm s
    have hr := ih hmi
    rw [foldl_cons, Segment.sizes]
    omega

end Machine

namespace Statement

/-- The length of the text that the segments of a statement add in turn. -/
def size : Statement → Nat
  | .raw _ => 0
  | .write segments => Segment.sizes segments.reverse

variable {m : Machine} {s : Statement}

theorem length_inTurn (hm : m.html.isString) (s : Statement) :
    (s.inTurn .undefined m).html.isString ∧ (s.inTurn .undefined m).length = m.length + s.size := by
  cases s with
  | raw code => exact ⟨hm, rfl⟩
  | write segments => exact Machine.length_foldl_addSegment hm segments.reverse

theorem line_eq_group {segments : List Segment} (h : s.line = .assign [.group segments]) :
    s.size = Segment.sizes segments := by
  unfold line at h
  split at h
  · cases h
  · next written =>
    split at h
    · simp only [Line.assign.injEq, cons.injEq, Operand.group.injEq, and_true] at h
      rw [size, h]
    · have hm : Operand.group segments ∈ written.reverse.map Operand.segment := by
        rw [Line.assign.inj h]
        exact mem_cons_self
      obtain ⟨s, -, hs⟩ := mem_map.1 hm
      cases hs

/-- **A statement that opens with a sum** makes the result longer by less than its segments do. -/
theorem length_step_lt (hm : m.html.isString) (hs : s.line.opensWithSum) :
    (m.step .undefined s.line).length < m.length + s.size := by
  unfold Line.opensWithSum at hs
  split at hs
  · next e e' more hl =>
    rw [hl, line_eq_group hl]
    obtain ⟨html, n⟩ := m
    cases html with
    | string h =>
      -- both expressions are added up to one undefined value, which is all that is left of them
      let sum : Machine := ⟨.number .nan, n + 1 + 1⟩
      have hmo : (more.foldl (Machine.addSegment .undefined) sum).length ≤
          Segment.size (.code e) + Segment.sizes more :=
        Machine.length_foldl_addSegment_le (.inr rfl) more
      have hst : (Machine.step .undefined ⟨.string h, n⟩
          (.assign [.group (.code e :: .code e' :: more)])).length =
          h.length + (more.foldl (Machine.addSegment .undefined) sum).length :=
        String.length_append ..
      have hsi : Segment.sizes (.code e :: .code e' :: more) =
          Segment.size (.code e) + (Segment.size (.code e) + Segment.sizes more) := rfl
      have hp : 0 < Segment.size (.code e) := show 0 < "NaN".length by decide
      have hle : Machine.length ⟨.string h, n⟩ = h.length := rfl
      omega
    | _ => exact absurd hm (by simp [Primitive.isString])
  · exact absurd hs (by simp)

theorem length_step_le (hm : m.html.isString) (s : Statement) :
    (m.step .undefined s.line).length ≤ m.length + s.size := by
  cases hs : s.line.addsNumbers .undefined m with
  | true => exact Nat.le_of_lt (length_step_lt hm (Line.opensWithSum_of_addsNumbers hs))
  | false =>
    rw [step_line .undefined hm s hs]
    exact Nat.le_of_eq (length_inTurn hm s).2

end Statement

theorem Segmented.isString_inTurn (out : Segmented) : (out.inTurn .undefined).html.isString := by
  induction out with
  | nil => rfl
  | cons s before ih => exact (Statement.length_inTurn ih s).1

/-- **One sum in front** is enough to lose text: no other statement makes up for it. -/
theorem Segmented.length_run_program (out : Segmented) :
    (run .undefined out.program).length ≤ (out.inTurn .undefined).length ∧
      ((∃ l ∈ out.program, l.opensWithSum) →
        (run .undefined out.program).length < (out.inTurn .undefined).length) := by
  induction out with
  | nil => exact ⟨Nat.le_refl _, fun ⟨l, hl, _⟩ => absurd hl (by simp [program])⟩
  | cons s before ih =>
    have hs := isString_run .undefined (program before)
    have ht : (inTurn .undefined (s :: before)).length =
        (inTurn .undefined before).length + s.size :=
      (Statement.length_inTurn (isString_inTurn before) s).2
    have hle := Statement.length_step_le hs s
    rw [run_program_cons]
    refine ⟨by omega, ?_⟩
    rintro ⟨l, hl, hsu⟩
    have hl' : l = s.line ∨ l ∈ program before := by
      simpa [program, or_comm] using hl
    rcases hl' with rfl | hl'
    · have hlt := Statement.length_step_lt hs hsu
      omega
    · have hb := ih.2 ⟨l, hl', hsu⟩
      omega

/-! ## When merging keeps the result -/

/-- **Merged statements** are read as they are written, and give the result that one statement for
each write gives wherever no group opens with two values that are added as numbers. They give it for
all values of the expressions exactly if no group opens with two expressions. -/
theorem run_ofWrites_eq_iff (writes : List Write) :
    let program := (Segmented.ofWrites writes).program
    let alone := writes.map Write.alone
    program.map Line.code = (Output.ofWrites writes).lines ∧
      (∀ oracle, (∀ before l behind, program = before ++ l :: behind →
          l.addsNumbers oracle (run oracle before) = false) →
        run oracle program = run oracle alone) ∧
      ((∀ oracle, (run oracle program).html = (run oracle alone).html) ↔
        ∀ l ∈ program, l.opensWithSum = false) := by
  intro program alone
  have hagree (oracle : Oracle) (h : ∀ before l behind, program = before ++ l :: behind →
      l.addsNumbers oracle (run oracle before) = false) :
      run oracle program = run oracle alone := by
    rw [Segmented.run_program oracle _ h, Segmented.inTurn_ofWrites]
  refine ⟨(Segmented.map_code_program _).trans (Output.lines_eq writes).symm, hagree, ?_, ?_⟩
  · intro heq l hl
    cases hsum : l.opensWithSum with
    | false => rfl
    | true =>
      -- it is enough to look at one assignment of values, under which every sum loses text
      have hlt := (Segmented.length_run_program (Segmented.ofWrites writes)).2 ⟨l, hl, hsum⟩
      rw [Segmented.inTurn_ofWrites, Machine.length, Machine.length, heq .undefined] at hlt
      exact absurd hlt (Nat.lt_irrefl _)
  · intro hnone oracle
    rw [hagree oracle]
    intro before l behind hprogram
    have hl : l ∈ program := by rw [hprogram]; simp
    cases hadds : l.addsNumbers oracle (run oracle before) with
    | false => rfl
    | true =>
      have hsum := Line.opensWithSum_of_addsNumbers hadds
      exact absurd hsum (by simp [hnone l hl])

/-- Two numbers that are written after each other are added: `1` and `2` give `3`. -/
theorem run_ofWrites_two_expressions :
    let writes : List Write := [.expression "a", .expression "b"]
    let oracle : Oracle := fun n _ => .number (.ofInt (n + 1))
    (Output.ofWrites writes).lines = ["pug_html = pug_html + ((a) + (b));"] ∧
      (run oracle (Segmented.ofWrites writes).program).html = .string "3" ∧
      (run oracle (writes.map Write.alone)).html = .string "12" := by
  decide

end Program
end PugTemplate
