/-!
# Categories of diagnostics
-/

namespace PugTemplate

inductive Category where
  | assertFailed
  | syntaxError
  | incorrectNesting
  | noEndBracket
  | bracketMismatch
  | invalidId
  | invalidClassName
  | noExtendsPath
  | malformedExtends
  | noIncludePath
  | malformedInclude
  | noCaseExpression
  | noWhenExpression
  | defaultWithExpression
  | elseCondition
  | noWhileExpression
  | malformedEach
  | invalidKeyCharacter
  | invalidIndentation
  | inconsistentIndentation
  | unexpectedText
  | interpolationTooDeep
  | invalidToken
  | endOfStream
  | blockInBufferedCode
  | blockOutsideMixin
  | mixinWithoutBody
  | rawIncludeBlock
  | pluginConflict
  | duplicateId
  | duplicateAttribute
  | selfClosingContent
  | unsupportedNodeType
  deriving DecidableEq, Repr, Inhabited

namespace Category

def code : Category → String
  | .assertFailed => "ASSERT_FAILED"
  | .syntaxError => "SYNTAX_ERROR"
  | .incorrectNesting => "INCORRECT_NESTING"
  | .noEndBracket => "NO_END_BRACKET"
  | .bracketMismatch => "BRACKET_MISMATCH"
  | .invalidId => "INVALID_ID"
  | .invalidClassName => "INVALID_CLASS_NAME"
  | .noExtendsPath => "NO_EXTENDS_PATH"
  | .malformedExtends => "MALFORMED_EXTENDS"
  | .noIncludePath => "NO_INCLUDE_PATH"
  | .malformedInclude => "MALFORMED_INCLUDE"
  | .noCaseExpression => "NO_CASE_EXPRESSION"
  | .noWhenExpression => "NO_WHEN_EXPRESSION"
  | .defaultWithExpression => "DEFAULT_WITH_EXPRESSION"
  | .elseCondition => "ELSE_CONDITION"
  | .noWhileExpression => "NO_WHILE_EXPRESSION"
  | .malformedEach => "MALFORMED_EACH"
  | .invalidKeyCharacter => "INVALID_KEY_CHARACTER"
  | .invalidIndentation => "INVALID_INDENTATION"
  | .inconsistentIndentation => "INCONSISTENT_INDENTATION"
  | .unexpectedText => "UNEXPECTED_TEXT"
  | .interpolationTooDeep => "INTERPOLATION_TOO_DEEP"
  | .invalidToken => "INVALID_TOKEN"
  | .endOfStream => "END_OF_STREAM"
  | .blockInBufferedCode => "BLOCK_IN_BUFFERED_CODE"
  | .blockOutsideMixin => "BLOCK_OUTSIDE_MIXIN"
  | .mixinWithoutBody => "MIXIN_WITHOUT_BODY"
  | .rawIncludeBlock => "RAW_INCLUDE_BLOCK"
  | .pluginConflict => "PLUGIN_CONFLICT"
  | .duplicateId => "DUPLICATE_ID"
  | .duplicateAttribute => "DUPLICATE_ATTRIBUTE"
  | .selfClosingContent => "SELF_CLOSING_CONTENT"
  | .unsupportedNodeType => "UNSUPPORTED_NODE_TYPE"

/-- The name of a category for readers. -/
def label : Category → String
  | .assertFailed => "Assertion failed"
  | .syntaxError => "Invalid expression"
  | .incorrectNesting => "Incorrect nesting"
  | .noEndBracket => "Missing end bracket"
  | .bracketMismatch => "Mismatched bracket"
  | .invalidId => "Invalid id"
  | .invalidClassName => "Invalid class name"
  | .noExtendsPath => "Missing extends path"
  | .malformedExtends => "Malformed extends"
  | .noIncludePath => "Missing include path"
  | .malformedInclude => "Malformed include"
  | .noCaseExpression => "Missing case expression"
  | .noWhenExpression => "Missing when expression"
  | .defaultWithExpression => "Default with expression"
  | .elseCondition => "Else with condition"
  | .noWhileExpression => "Missing while expression"
  | .malformedEach => "Malformed each"
  | .invalidKeyCharacter => "Invalid attribute key"
  | .invalidIndentation => "Invalid indentation"
  | .inconsistentIndentation => "Inconsistent indentation"
  | .unexpectedText => "Unexpected text"
  | .interpolationTooDeep => "Interpolation nested too deeply"
  | .invalidToken => "Unexpected token"
  | .endOfStream => "Unexpected end of input"
  | .blockInBufferedCode => "Block in buffered code"
  | .blockOutsideMixin => "Block outside mixin"
  | .mixinWithoutBody => "Mixin without body"
  | .rawIncludeBlock => "Block under raw include"
  | .pluginConflict => "Plugin conflict"
  | .duplicateId => "Duplicate id"
  | .duplicateAttribute => "Duplicate attribute"
  | .selfClosingContent => "Self-closing tag with content"
  | .unsupportedNodeType => "Unsupported node type"

def all : List Category :=
  [.assertFailed, .syntaxError, .incorrectNesting, .noEndBracket, .bracketMismatch, .invalidId,
    .invalidClassName, .noExtendsPath, .malformedExtends, .noIncludePath, .malformedInclude,
    .noCaseExpression, .noWhenExpression, .defaultWithExpression, .elseCondition, .noWhileExpression,
    .malformedEach, .invalidKeyCharacter, .invalidIndentation, .inconsistentIndentation,
    .unexpectedText, .interpolationTooDeep, .invalidToken, .endOfStream, .blockInBufferedCode,
    .blockOutsideMixin, .mixinWithoutBody, .rawIncludeBlock, .pluginConflict, .duplicateId,
    .duplicateAttribute, .selfClosingContent, .unsupportedNodeType]

def ofCode? (code : String) : Option Category := all.find? fun c => c.code == code

end Category
end PugTemplate
