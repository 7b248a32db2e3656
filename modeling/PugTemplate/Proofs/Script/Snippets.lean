import PugTemplate.Proofs.Script.Following
import PugTemplate.Script.Judge
/-!
# The pieces of a snippet

A snippet is one expression if the parser says so, and the parser is not part of this library. What is
asked of it is said by `Parser.Lexical`: its nodes cover the text that they stand for, and between the
parentheses of an expression the text falls into pieces that close what they open.
-/

namespace PugTemplate

open List Option

namespace Nesting

/-! ## Offsets -/

variable {cs front rest text : List Char}

@[simp] theorem bytes_append (cs ds : List Char) : bytes (cs ++ ds) = bytes cs + bytes ds := by
  induction cs with
  | nil => simp [bytes]
  | cons c cs ih => simp [bytes, ih, Nat.add_assoc]

theorem bytes_pos {cs : List Char} (h : cs ≠ []) : 0 < bytes cs := by
  cases cs with
  | nil => exact absurd rfl h
  | cons c cs => exact Nat.add_pos_left c.utf8Size_pos _

theorem eq_nil_of_bytes {cs : List Char} (h : bytes cs = 0) : cs = [] := by
  by_contra hne
  exact absurd h (bytes_pos hne).ne'

theorem cut?_eq_some_iff {n : Nat} :
    cut? n cs = some (front, rest) ↔ cs = front ++ rest ∧ bytes front = n := by
  constructor
  · intro h
    fun_induction cut? n cs generalizing front with
    | case1 => cases h; exact ⟨rfl, rfl⟩
    | case2 => cases h
    | case3 n c cs hf ih =>
      obtain ⟨⟨front, rest⟩, hc, heq⟩ := map_eq_some_iff.mp h
      cases heq
      obtain ⟨rfl, hb⟩ := ih hc
      exact ⟨rfl, by rw [bytes]; omega⟩
    | case4 => cases h
  · rintro ⟨rfl, rfl⟩
    induction front with
    | nil => simp [bytes, cut?]
    | cons c front ih =>
      have hp := c.utf8Size_pos
      obtain ⟨n, hn⟩ := Nat.exists_eq_succ_of_ne_zero (n := bytes (c :: front)) (by rw [bytes]; omega)
      rw [hn, cons_append, cut?, if_pos (by rw [bytes] at hn; omega)]
      rw [show n + 1 - c.utf8Size = bytes front by rw [bytes] at hn; omega, ih]
      rfl

theorem slice?_eq_some_iff {start stop : Nat} : slice? start stop cs = some text ↔
      ∃ front rest, cs = front ++ (text ++ rest) ∧ bytes front = start ∧
        start + bytes text = stop := by
  unfold slice?
  constructor
  · intro h
    obtain ⟨⟨before, rest⟩, hs, h⟩ := bind_eq_some_iff.mp h
    obtain ⟨⟨front, found⟩, hst, rfl⟩ := map_eq_some_iff.mp h
    obtain ⟨rfl, hb⟩ := cut?_eq_some_iff.mp hs
    obtain ⟨rfl, rfl⟩ := cut?_eq_some_iff.mp hst
    exact ⟨front, rest, append_assoc .., rfl, by rw [← hb, bytes_append]⟩
  · rintro ⟨front, rest, rfl, rfl, rfl⟩
    have hs : cut? (bytes front + bytes text) (front ++ (text ++ rest)) =
        some (front ++ text, rest) := cut?_eq_some_iff.mpr ⟨by simp, by simp⟩
    rw [hs, bind_some]
    dsimp only
    rw [cut?_eq_some_iff.mpr ⟨rfl, rfl⟩]
    rfl

theorem utf8ByteSize_ofList_eq (cs : List Char) : (String.ofList cs).utf8ByteSize = bytes cs := by
  induction cs with
  | nil => rfl
  | cons c cs ih =>
    rw [String.ofList_cons, String.utf8ByteSize_append, String.utf8ByteSize_singleton, ih]
    rfl

theorem utf8ByteSize_eq_bytes (s : String) : s.utf8ByteSize = bytes s.toList := by
  rw [← utf8ByteSize_ofList_eq, String.ofList_toList]

end Nesting

namespace Script

open Nesting (Context bytes slice?)

namespace Syntax

theorem parts_induction {P : Syntax → Prop}
    (node : ∀ info children, (∀ part ∈ children, P part) → P (.node info children)) (t : Syntax) :
    P t :=
  @rec P (fun parts => ∀ part ∈ parts, P part) node (fun _ hp => absurd hp not_mem_nil)
    (fun _ _ hfirst hrest => forall_mem_cons.mpr ⟨hfirst, hrest⟩) t

mutual
/-- The nodes of a tree, from the top and from the left. -/
def nodes : Syntax → List Syntax
  | .node info children => .node info children :: allNodes children

/-- `nodes` of trees, one after the other. -/
def allNodes : List Syntax → List Syntax
  | [] => []
  | t :: ts => t.nodes ++ allNodes ts
end

theorem mem_nodes_self (t : Syntax) : t ∈ t.nodes := by
  cases t
  rw [nodes]
  exact mem_cons_self

theorem mem_allNodes {t u : Syntax} {ts : List Syntax} (ht : t ∈ ts) (hu : u ∈ t.nodes) :
    u ∈ allNodes ts := by
  induction ht with
  | head => exact mem_append_left _ hu
  | tail _ _ ih => exact mem_append_right _ ih

theorem mem_nodes_of_child {t u v : Syntax} (hu : u ∈ t.children) (hv : v ∈ u.nodes) :
    v ∈ t.nodes := by
  cases t with
  | node info children =>
    rw [nodes]
    exact mem_cons_of_mem _ (mem_allNodes hu hv)

/-- A regular expression starts at a byte of the text. -/
def isRegexAt (t : Syntax) (place : Nat) : Bool :=
  t.nodes.any fun u => u.kind == "regex" && u.info.start == place

/-- There is no text in a tree that is not made of lexemes: no markup between tags, and no comment
that starts with the brackets of one. -/
def isPlain (t : Syntax) : Bool :=
  t.nodes.all fun u =>
    !(["jsx_element", "jsx_self_closing_element", "jsx_fragment", "html_comment"].contains u.kind)

def leaf (kind text : String) (start : Nat) : Syntax := .node { kind, text, start } []

def mark (text : String) (start : Nat) : Syntax :=
  .node { kind := text, isNamed := false, text, start } []

/-- The tree of a wrapped snippet that is one expression, by what stands between the parentheses. -/
def wrapped (snippet : String) (parts : List Syntax) : Syntax :=
  .node { kind := "program", text := wrap snippet }
    [.node { kind := "expression_statement", text := wrap snippet }
      [.node { kind := "parenthesized_expression", text := wrap snippet }
        (mark "(" 0 :: parts ++ [mark ")" (snippet.utf8ByteSize + 2)])]]

/-- The pieces of a text between parentheses, the first of which stands before a byte, with what is
open and left after them. -/
def groupPieces (t : Syntax) (place : Nat) (cs : List Char) :
    List Piece × List Context × List Char :=
  cutPieces t.isRegexAt cs.length place [] cs

end Syntax

/-- **What is asked of a parser.** Where a regular expression starts is told by its nodes. -/
structure Parser.Lexical (parse : Parser) : Prop where
  /-- A node covers its text. -/
  covers : ∀ {text : String} {root t : Syntax}, parse text = some root → t ∈ root.nodes →
    slice? t.info.start t.stop text.toList = some t.text.toList
  /-- Nothing is open before the parenthesis that ends an expression. -/
  closes : ∀ {text : String} {root t : Syntax}, parse text = some root → root.hasError = false →
    root.isPlain = true → t ∈ root.nodes → t.kind = "parenthesized_expression" →
    (root.groupPieces (t.info.start + 1) t.text.toList.tail).2 = ([], [')'])

namespace Parser

variable {parse : Parser} {snippet : String}

def isPlain (parse : Parser) (snippet : String) : Bool := (parse (wrap snippet)).all Syntax.isPlain

/-- The pieces of a snippet, with the line break that is read after it. -/
def pieces (parse : Parser) (snippet : String) : List Piece :=
  match parse (wrap snippet) with
  | some root => (root.groupPieces 1 (snippet.toList ++ ['\n', ')'])).1
  | none => []

theorem of_accepts (h : parse.validator.accepts snippet) :
    ∃ root, parse (wrap snippet) = some root ∧ root.hasError = false ∧
      (wrapped? root (wrap snippet)).isSome := by
  unfold Validator.accepts validator at h
  cases hp : parse (wrap snippet) with
  | none => simp [hp] at h
  | some root =>
    simp only [hp] at h
    split at h
    · cases h
    · next herror =>
      split at h
      · cases h
      · next hwrapped =>
        exact ⟨root, rfl, eq_false_of_ne_true herror, by simpa [isSome_iff_ne_none] using hwrapped⟩

theorem mem_of_mem_named {t : Syntax} {ts : List Syntax} (h : t ∈ Syntax.named ts) : t ∈ ts :=
  mem_of_mem_filter h

theorem group_of_wrapped {root : Syntax} {text : String} (h : (wrapped? root text).isSome) :
    ∃ t ∈ root.nodes, t.kind = "parenthesized_expression" ∧ t.info.start = 0 ∧
      t.stop = text.utf8ByteSize := by
  unfold wrapped? at h
  split at h
  · next statement hstatement =>
    split at h
    · cases h
    · split at h
      · next inner more hinner =>
        split at h
        · cases h
        · next hgroup =>
          have hs : statement ∈ root.children := mem_of_mem_named (hstatement ▸ mem_cons_self)
          have hi : inner ∈ statement.children := mem_of_mem_named (hinner ▸ mem_cons_self)
          refine ⟨inner, ?_, ?_⟩
          · exact Syntax.mem_nodes_of_child hs (Syntax.mem_nodes_of_child hi inner.mem_nodes_self)
          · simpa [and_assoc] using hgroup
      · cases h
  · cases h

/-- **The pieces of an expression** lead to the parenthesis that closes after it, where nothing is
open. -/
theorem passage_of_accepts (hlexical : parse.Lexical) (haccepts : parse.validator.accepts snippet)
    (hplain : parse.isPlain snippet) :
    Passage [] (snippet.toList ++ ['\n', ')']) (parse.pieces snippet) [] [')'] := by
  obtain ⟨root, hroot, herror, hwrapped⟩ := of_accepts haccepts
  obtain ⟨t, ht, hkind, hstart, hstop⟩ := group_of_wrapped hwrapped
  -- the parentheses are those that the snippet is wrapped in
  have htext : t.text.toList = '(' :: (snippet.toList ++ ['\n', ')']) := by
    obtain ⟨front, rest, heq, hfront, hsize⟩ := Nesting.slice?_eq_some_iff.mp (hlexical.covers hroot ht)
    rw [hstart] at hfront hsize
    have hrest : bytes rest = 0 := by
      have hall := congrArg bytes heq
      rw [Nesting.bytes_append, Nesting.bytes_append, ← Nesting.utf8ByteSize_eq_bytes, ← hstop,
        ← hsize, hfront] at hall
      omega
    rw [Nesting.eq_nil_of_bytes hfront, Nesting.eq_nil_of_bytes hrest] at heq
    simpa [wrap] using heq.symm
  have hplain : root.isPlain := by
    unfold isPlain at hplain
    rw [hroot] at hplain
    exact hplain
  have hcloses := hlexical.closes hroot herror hplain ht hkind
  rw [hstart, htext, tail_cons] at hcloses
  have hpassage := passage_cutPieces root.isRegexAt (snippet.toList ++ ['\n', ')']).length 1 []
    (snippet.toList ++ ['\n', ')'])
  unfold pieces
  rw [hroot]
  simp only [Syntax.groupPieces] at hcloses ⊢
  rw [hcloses] at hpassage
  exact hpassage

/-! ## Parsers of one text -/

def only (text : String) (tree : Syntax) : Parser := fun s => if s = text then some tree else none

theorem lexical_only {text : String} {tree : Syntax}
    (hcovers : ∀ t ∈ tree.nodes, slice? t.info.start t.stop text.toList = some t.text.toList)
    (hcloses : ∀ t ∈ tree.nodes, t.kind = "parenthesized_expression" →
      (tree.groupPieces (t.info.start + 1) t.text.toList.tail).2 = ([], [')'])) :
    (only text tree).Lexical := by
  have hparse {s : String} {root : Syntax} (h : only text tree s = some root) :
      s = text ∧ root = tree := by
    obtain ⟨hs, hroot⟩ := ite_none_right_eq_some.mp h
    exact ⟨hs, (some.inj hroot).symm⟩
  constructor
  · intro s root t hroot ht
    obtain ⟨rfl, rfl⟩ := hparse hroot
    exact hcovers t ht
  · intro s root t hroot _ _ ht hkind
    obtain ⟨rfl, rfl⟩ := hparse hroot
    exact hcloses t ht hkind

theorem eq_of_accepts_only {text : String} {tree : Syntax}
    (h : (only (wrap text) tree).validator.accepts snippet) : snippet = text := by
  obtain ⟨root, hroot, -⟩ := of_accepts h
  obtain ⟨heq, -⟩ := ite_none_right_eq_some.mp hroot
  have hlist := congrArg String.toList heq
  exact String.toList_inj.mp (by simpa [wrap] using hlist)

end Parser
end Script
end PugTemplate
