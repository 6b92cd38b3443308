import PuralinguaIR.Text

/-!
# Tokens

The token kinds of the language: the keywords and special characters with their texts, the literal kinds with
what the lexer records about them, and the classification of kinds the parser and the gate of the parser use.
-/

namespace PuralinguaIR

/-! ### Keywords -/

/-- The keywords that begin a statement. -/
inductive StatementKeyword where
  | load | readPointerTo | writePointer
  | check
  | newObject | newArray
  | instanceCall | staticCall | interfaceCall | nonPurusCall
  | setField | setThisField | setStaticField
  | throw | returnVal | jump
  | nop
deriving DecidableEq, Repr

namespace StatementKeyword

def asStr : StatementKeyword → String
  | load => "Load"
  | readPointerTo => "ReadPointerTo"
  | writePointer => "WritePointer"
  | check => "Check"
  | newObject => "NewObject"
  | newArray => "NewArray"
  | instanceCall => "InstanceCall"
  | staticCall => "StaticCall"
  | interfaceCall => "InterfaceCall"
  | nonPurusCall => "NonPurusCall"
  | setField => "SetField"
  | setThisField => "SetThisField"
  | setStaticField => "SetStaticField"
  | throw => "Throw"
  | returnVal => "ReturnVal"
  | jump => "Jump"
  | nop => "Nop"

def variants : List StatementKeyword :=
  [load, readPointerTo, writePointer, check, newObject, newArray, instanceCall, staticCall, interfaceCall,
    nonPurusCall, setField, setThisField, setStaticField, throw, returnVal, jump, nop]

/-- The keyword with the given text. -/
def tryFrom (s : String) : Option StatementKeyword := variants.find? (·.asStr == s)

end StatementKeyword

inductive Keyword where
  | «class» | struct | interface | method | field
  | «public» | «private» | internal
  | static
  | partial_
  | override
  | hideWhenCapturing
  | callConventionC | callConventionCWithVararg | callConventionWIN64 | callConventionSystemV
  | callConventionSTDCALL | callConventionFASTCALL
  | main
  | «where»
  | impl
  | exceptionTable
  | tryRel | exceptionCatch | exceptionFinally | exceptionFault
  | «in»
  | as
  | ref
  | «if»
  | true | false | this | success | failure
  | loadArg | loadField
  | sizeof
  | locals
  | jumpAbsolute | jumpForward | jumpBackward
  | checkAllZero
deriving DecidableEq, Repr

namespace Keyword

def asStr : Keyword → String
  | «class» => "class"
  | struct => "struct"
  | interface => "interface"
  | method => "method"
  | field => "field"
  | «public» => "public"
  | «private» => "private"
  | internal => "internal"
  | static => "static"
  | partial_ => "partial"
  | override => "override"
  | hideWhenCapturing => "hide_when_capturing"
  | callConventionC => "C"
  | callConventionCWithVararg => "C_VARARG"
  | callConventionWIN64 => "WIN64"
  | callConventionSystemV => "SYSTEM_V"
  | callConventionSTDCALL => "STDCALL"
  | callConventionFASTCALL => "FASTCALL"
  | main => "__MAIN"
  | «where» => "where"
  | impl => "impl"
  | exceptionTable => "exception_table"
  | tryRel => "try_rel"
  | exceptionCatch => "ExceptionCatch"
  | exceptionFinally => "ExceptionFinally"
  | exceptionFault => "ExceptionFault"
  | «in» => "in"
  | as => "as"
  | ref => "ref"
  | «if» => "if"
  | true => "true"
  | false => "false"
  | this => "this"
  | success => "success"
  | failure => "failure"
  | loadArg => "__arg"
  | loadField => "__field"
  | sizeof => "sizeof"
  | locals => "locals"
  | jumpAbsolute => "__absolute"
  | jumpForward => "__forward"
  | jumpBackward => "__backward"
  | checkAllZero => "__all_zero"

def variants : List Keyword :=
  [«class», struct, interface, method, field, «public», «private», internal, static, partial_, override,
    hideWhenCapturing, callConventionC, callConventionCWithVararg, callConventionWIN64, callConventionSystemV,
    callConventionSTDCALL, callConventionFASTCALL, main, «where», impl, exceptionTable, tryRel, exceptionCatch,
    exceptionFinally, exceptionFault, «in», as, ref, «if», true, false, this, success, failure, loadArg, loadField,
    sizeof, locals, jumpAbsolute, jumpForward, jumpBackward, checkAllZero]

/-- The keyword with the given text. -/
def tryFrom (s : String) : Option Keyword := variants.find? (·.asStr == s)

def visibilityModifiers : List Keyword := [«public», «private», internal]

def typeModifiers : List Keyword := visibilityModifiers

def classModifiers : List Keyword := typeModifiers ++ [static, partial_]

def structModifiers : List Keyword := typeModifiers ++ [ref, partial_]

def interfaceModifiers : List Keyword := typeModifiers

def fieldModifiers : List Keyword := visibilityModifiers ++ [static]

def methodModifiers : List Keyword :=
  visibilityModifiers ++ [static, override, hideWhenCapturing, callConventionC, callConventionCWithVararg,
    callConventionFASTCALL, callConventionSTDCALL, callConventionSystemV, callConventionWIN64]

def parameterModifiers : List Keyword := [ref]

def isClassModifier (k : Keyword) : Bool := classModifiers.contains k

def isStructModifier (k : Keyword) : Bool := structModifiers.contains k

def isInterfaceModifier (k : Keyword) : Bool := interfaceModifiers.contains k

def isFieldModifier (k : Keyword) : Bool := fieldModifiers.contains k

def isMethodModifier (k : Keyword) : Bool := methodModifiers.contains k

def isParameterModifier (k : Keyword) : Bool := parameterModifiers.contains k

end Keyword

theorem Keyword.mem_variants (k : Keyword) : k ∈ Keyword.variants := by
  cases k <;> decide

theorem StatementKeyword.mem_variants (k : StatementKeyword) : k ∈ StatementKeyword.variants := by
  cases k <;> decide

theorem Keyword.tryFrom_asStr (k : Keyword) : Keyword.tryFrom k.asStr = some k := by
  cases k <;> decide

theorem StatementKeyword.tryFrom_asStr (k : StatementKeyword) :
    StatementKeyword.tryFrom k.asStr = some k := by
  cases k <;> decide

/-- No statement keyword is spelled like a keyword. -/
theorem Keyword.tryFrom_statementKeyword (k : StatementKeyword) : Keyword.tryFrom k.asStr = none := by
  cases k <;> decide

/-! ### Special characters -/

inductive SpecialChar where
  | parenthesisOpen | parenthesisClose | bracketOpen | bracketClose | braceOpen | braceClose
  | lessThanSign | greaterThanSign
  | colon | semicolon | equalsSign
  | underscore
  | comma | period
  | exclamationMark | at | questionMark | ampersand
  | plus | hyphen | tildeSymbol | circumflex | asterisk | solidus | percentSign | verticalBar | numberSign
  | arrow | thinArrow
  | doubledColon | doubledPlus | doubledHyphen | doubledDot | doubledEqualsSign | doubledAmpersand
  | doubledVerticalBar
deriving DecidableEq, Repr

namespace SpecialChar

def asStr : SpecialChar → String
  | parenthesisOpen => "("
  | parenthesisClose => ")"
  | bracketOpen => "["
  | bracketClose => "]"
  | braceOpen => "\x7b"
  | braceClose => "\x7d"
  | lessThanSign => "<"
  | greaterThanSign => ">"
  | colon => ":"
  | semicolon => ";"
  | equalsSign => "="
  | underscore => "_"
  | comma => ","
  | period => "."
  | exclamationMark => "!"
  | «at» => "@"
  | questionMark => "?"
  | ampersand => "&"
  | plus => "+"
  | hyphen => "-"
  | tildeSymbol => "~"
  | circumflex => "^"
  | asterisk => "*"
  | solidus => "/"
  | percentSign => "%"
  | verticalBar => "|"
  | numberSign => "#"
  | arrow => "=>"
  | thinArrow => "->"
  | doubledColon => "::"
  | doubledPlus => "++"
  | doubledHyphen => "--"
  | doubledDot => ".."
  | doubledEqualsSign => "=="
  | doubledAmpersand => "&&"
  | doubledVerticalBar => "||"

/-- All variants in descending order of their texts. -/
def variantsOrderedRev : List SpecialChar :=
  [tildeSymbol, braceClose, doubledVerticalBar, verticalBar, braceOpen, underscore, circumflex, bracketClose,
    bracketOpen, «at», questionMark, greaterThanSign, arrow, doubledEqualsSign, equalsSign, lessThanSign,
      semicolon,
    doubledColon, colon, solidus, doubledDot, period, thinArrow, doubledHyphen, hyphen, comma, doubledPlus, plus,
    asterisk, parenthesisClose, parenthesisOpen, doubledAmpersand, ampersand, percentSign, numberSign,
    exclamationMark]

/-- The first variant, in descending order, whose text begins the source. -/
def parsePrefix (s : List Char) : Option SpecialChar :=
  variantsOrderedRev.find? fun x => x.asStr.toList.isPrefixOf s

end SpecialChar

theorem SpecialChar.mem_variantsOrderedRev (c : SpecialChar) : c ∈ SpecialChar.variantsOrderedRev := by
  cases c <;> decide

theorem SpecialChar.variantsOrderedRev_sorted :
    SpecialChar.variantsOrderedRev.Pairwise fun a b => b.asStr < a.asStr := by
  decide

/-! ### Literals and comments -/

inductive Base where
  | binary | octal | decimal | hexadecimal
deriving DecidableEq, Repr

/-- The radix a base stands for. -/
def Base.radix : Base → Nat
  | binary => 2
  | octal => 8
  | decimal => 10
  | hexadecimal => 16

/-- What the lexer records about a literal; `nHashes` is missing for an invalid raw string. -/
inductive LiteralKind where
  | int (base : Base) (emptyInt : Bool)
  | float (base : Base) (emptyExponent : Bool)
  | char (terminated : Bool)
  | byte (terminated : Bool)
  | str (terminated : Bool)
  | byteStr (terminated : Bool)
  | rawStr (nHashes : Option UInt8)
  | rawByteStr (nHashes : Option UInt8)
deriving DecidableEq, Repr

inductive LiteralKindType where
  | int | float | char | byte | str | byteStr | rawStr | rawByteStr
deriving DecidableEq, Repr

inductive DocStyle where
  | outer | inner
deriving DecidableEq, Repr

inductive Comment where
  | line (style : Option DocStyle)
  | block (style : Option DocStyle) (terminated : Bool)
deriving DecidableEq, Repr

/-! ### Token kinds -/

inductive TokenKind where
  | keyword (k : Keyword)
  | statementKeyword (k : StatementKeyword)
  | specialChar (c : SpecialChar)
  | comment (c : Comment)
  | literal (kind : LiteralKind) (suffixStart : Nat)
  | guardedStrPrefix
  | identifier
  | invalidIdentifier
  | rawIdentifier
  | unknownPrefix
  | whiteSpace
  | unknown
  | eof
deriving DecidableEq, Repr

namespace TokenKind

def isIdentifier (k : TokenKind) : Bool := [identifier, rawIdentifier].contains k

def isInt : TokenKind → Bool
  | literal (.int _ false) _ => true
  | _ => false

def isWhitespace (k : TokenKind) : Bool := k == whiteSpace

def isInvalid : TokenKind → Bool
  | literal (.char terminated) _ => !terminated
  | literal (.byte terminated) _ => !terminated
  | literal (.str terminated) _ => !terminated
  | literal (.byteStr terminated) _ => !terminated
  | invalidIdentifier => true
  | unknown => true
  | _ => false

end TokenKind

/-- The bytes of the source a token covers. -/
structure Span where
  start : Nat
  stop : Nat
deriving DecidableEq, Repr

structure TokenInfo where
  kind : TokenKind
  span : Span
deriving DecidableEq, Repr

end PuralinguaIR
