import PugTemplate.Program.Generate
import PugTemplate.Proofs.Program.Segments
/-!
# The content of a body

The body of a program is read as a list of parts: texts, values of expressions, and statements. Its
content is what is left when white space is deleted from the texts, when the statements that keep
track of lines and of indentation are dropped, and when the texts that meet are joined.
-/

namespace PugTemplate
namespace Program

/-! ## Parts -/

/-- A part of the body of a program. -/
inductive Part where
  /-- Writes a text. -/
  | text (chars : List Char)
  /-- Writes the value of an expression. -/
  | value (source : String)
  /-- Does anything else. -/
  | raw (code : String)
  deriving DecidableEq, Repr, Inhabited

def Segment.part : Segment → Part
  | .text content => .text content.toList
  | .code source => .value source

def Statement.parts : Statement → List Part
  | .raw code => [.raw code]
  | .write segments => segments.reverse.map Segment.part

def Segmented.parts (out : Segmented) : List Part := out.reverse.flatMap Statement.parts

def Write.part : Write → Part
  | .text content => .text content.toList
  | .expression source => .value source
  | .choice subject => .raw (choiceCode subject)
  | .branch value => .raw (branchCode value)
  | .statement code => .raw code

@[simp] theorem Segmented.parts_nil : Segmented.parts [] = [] := rfl

@[simp] theorem Segmented.parts_cons (s : Statement) (out : Segmented) :
    Segmented.parts (s :: out) = out.parts ++ s.parts := by
  simp [parts]

/-! ## Content -/

/-- A statement that notes the line of a node. -/
def isLineNote (code : String) : Bool := ";pug_debug_line".toList.isPrefixOf code.toList

/-- A statement that keeps track of the indentation around mixins. -/
def isFrameNote (code : String) : Bool :=
  code == "var pug_indent = [];" || code == "pug_html = pug_html + pug_indent.join(\"\");" ||
    code == "pug_indent.pop();" || "pug_indent.push(".toList.isPrefixOf code.toList

/-- Puts a text in front of parts. It is joined to the text that they start with; no text at all is
no part. -/
def joinText (chars : List Char) : List Part → List Part
  | .text more :: rest => .text (chars ++ more) :: rest
  | parts => if chars.isEmpty then parts else .text chars :: parts

/-- Puts the content of a part in front of parts. -/
def Part.addContent : Part → List Part → List Part
  | .text chars, rest => joinText (chars.filter fun c => !Text.isBlank c) rest
  | .value source, rest => .value source :: rest
  | .raw code, rest => if isLineNote code || isFrameNote code then rest else .raw code :: rest

/-- What is left of parts without white space in texts and without statements that keep track of
lines and of indentation. -/
def content (parts : List Part) : List Part := parts.foldr Part.addContent []

@[simp] theorem joinText_nil (parts : List Part) : joinText [] parts = parts := by
  unfold joinText
  split <;> simp

theorem joinText_joinText (a b : List Char) (parts : List Part) :
    joinText a (joinText b parts) = joinText (a ++ b) parts := by
  by_cases hb : b = []
  · subst hb
    rw [joinText_nil, List.append_nil]
  · cases parts with
    | nil => simp [joinText, hb]
    | cons p rest => cases p <;> simp [joinText, hb]

/-- Parts that add the same content in front of whatever follows them. -/
def SameContent (a b : List Part) : Prop :=
  ∀ rest, a.foldr Part.addContent rest = b.foldr Part.addContent rest

namespace SameContent

variable {a b c d : List Part}

theorem refl (a : List Part) : SameContent a a := fun _ => rfl

theorem of_eq (h : a = b) : SameContent a b := h ▸ refl a

theorem symm (h : SameContent a b) : SameContent b a := fun rest => (h rest).symm

theorem trans (ha : SameContent a b) (hb : SameContent b c) : SameContent a c :=
  fun rest => (ha rest).trans (hb rest)

theorem append (ha : SameContent a b) (hc : SameContent c d) : SameContent (a ++ c) (b ++ d) := by
  intro rest
  rw [List.foldr_append, List.foldr_append, hc rest, ha]

theorem content_eq (h : SameContent a b) : content a = content b := h []

theorem blank {chars : List Char} (h : ∀ c ∈ chars, Text.isBlank c) :
    SameContent [.text chars] [] := by
  intro rest
  have hn : (chars.filter fun c => !Text.isBlank c) = [] :=
    List.filter_eq_nil_iff.2 fun c hc => by simp [h c hc]
  simp [Part.addContent, hn]

/-- A statement that keeps track of lines or of indentation is no content. -/
theorem note {code : String} (h : (isLineNote code || isFrameNote code) = true) :
    SameContent [.raw code] [] := by
  intro rest
  simp only [List.foldr_cons, List.foldr_nil, Part.addContent, if_pos h]

theorem text_append (s t : List Char) : SameContent [.text (s ++ t)] [.text s, .text t] := by
  intro rest
  simp [Part.addContent, joinText_joinText]

end SameContent

/-! ## Merging -/

theorem sameContent_addText (content : String) (segments : List Segment) :
    SameContent (Statement.write (Statement.addText content segments)).parts
      ((Statement.write segments).parts ++ [.text content.toList]) := by
  unfold Statement.addText
  split
  · next before rest =>
    -- the text goes into the one that stands last
    have hc := SameContent.text_append before.toList content.toList
    simpa [Statement.parts, Segment.part] using (SameContent.refl _).append hc
  · exact .of_eq (by simp [Statement.parts, Segment.part])

theorem sameContent_add (out : Segmented) (w : Write) :
    SameContent (out.add w).parts (out.parts ++ [w.part]) := by
  cases w with
  | text content =>
    simp only [Segmented.add, Segmented.addText]
    split
    · next segments rest =>
      split
      · simpa [Write.part] using
          (SameContent.refl (Segmented.parts rest)).append (sameContent_addText content segments)
      · exact .of_eq (Segmented.parts_cons _ _)
    · exact .of_eq (Segmented.parts_cons _ _)
  | expression source =>
    simp only [Segmented.add, Segmented.addExpression]
    split
    · next segments rest =>
      split
      · exact .of_eq (by simp [Statement.parts, Segment.part, Write.part])
      · exact .of_eq (Segmented.parts_cons _ _)
    · exact .of_eq (Segmented.parts_cons _ _)
  | choice subject | branch value | statement code => exact .of_eq (Segmented.parts_cons _ _)

/-- **Merging keeps the content**: statements have the content of the writes they are made of. -/
theorem sameContent_ofWrites (ws : List Write) :
    SameContent (Segmented.ofWrites ws).parts (ws.map Write.part) := by
  have hf (out : Segmented) :
      SameContent (ws.foldl Segmented.add out).parts (out.parts ++ ws.map Write.part) := by
    induction ws generalizing out with
    | nil => simpa using SameContent.refl _
    | cons w ws ih =>
      have ha := (sameContent_add out w).append (.refl (ws.map Write.part))
      simpa using (ih (out.add w)).trans ha
  exact hf []

end Program
end PugTemplate
