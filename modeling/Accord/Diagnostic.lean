import Accord.Source.Span

/-!
# Diagnostics

A diagnostic is the cause of a refusal.  Its wording (`Diagnostic.message`), its
stable code, its position and the advice that goes with it are functions of the
cause, each written once.

Causes fall into families, visible in the code: conflicts between definitions
(`E01xx`), failed resolutions (`E02xx`), ill-formed bodies (`E03xx`), trouble
with the input (`E0901`, `E0902`), an analysis that met its depth limit
(`E0998`), and inconsistent input that no checked program leads to (`E0999`).
-/

namespace Accord

/-- Input that contradicts itself: no program that passed the checks leads here. -/
inductive Inconsistency where
  | typeOutsideProject (name file : String)
  | functionOutsideProject (name file : String)
  | argumentCount (call : String) (written supplied : Nat)
  | candidateArity (function : String) (declared supplied : Nat)
  | unboundGeneric (generic function : String)

/-- The wording of an inconsistency. -/
def Inconsistency.message : Inconsistency → String
  | .typeOutsideProject name file =>
    s!"type {name} comes from file {file} which is not part of the project"
  | .functionOutsideProject name file =>
    s!"function {name} comes from file {file} which is not part of the project"
  | .argumentCount call written supplied =>
    s!"call {call} has {written} arguments but {supplied} argument types were supplied"
  | .candidateArity function declared supplied =>
    s!"candidate {function} takes {declared} arguments but the call supplies {supplied}"
  | .unboundGeneric generic function =>
    s!"generic {generic} of {function} was never bound"

/-- Why a project, a query or a function body is refused. -/
inductive Diagnostic where
  | duplicateType (name file : String)
  | duplicateFunction (name file : String) (span : Span)
  | duplicateFile (file : String)
  | duplicateIdentifier (name : String) (span : Span)
  | packageConflict (pattern package first second : String)
  | unknownType (name file : String)
  | cyclicAlias (name : String)
  | selfContaining (name : String)
  | noMatchingOverload (call arguments : String) (span : Span)
  | ambiguousCall (call arguments : String) (candidates : Nat) (span : Span)
  | unsplittableCall (call arguments : String) (span : Span)
  | mixedVoidness (call : String) (span : Span)
  | unresolvedGeneric (call : String) (span : Span)
  | undefinedVariable (name : String) (span : Span)
  | typeMismatch (expected got : String) (span : Span)
  | unknownField (field type : String) (span : Span)
  | notARecord (type : String) (span : Span)
  | notAPointer (type : String) (span : Span)
  | notIndexable (type : String) (span : Span)
  | voidValue (call : String) (span : Span)
  | assignmentToConst (name : String) (span : Span)
  | notAssignable (span : Span)
  | misplacedLoopControl (keyword : String) (span : Span)
  | missingReturnValue (function : String) (span : Span)
  | unexpectedReturnValue (function : String) (span : Span)
  | missingReturnPath (function : String) (span : Span)
  | unreachableCode (function : String) (span : Span)
  | notAddressable (span : Span)
  | unreadable (reason : String)
  | malformed (reason : String)
  /-- The analysis went deeper than it was allowed to. -/
  | limitReached
  | inconsistent (cause : Inconsistency)

namespace Diagnostic

/-- The wording of a diagnostic. -/
def message : Diagnostic → String
  | .duplicateType name file => s!"Duplicate type definition: {name} (in {file})"
  | .duplicateFunction name file _ => s!"Duplicate function definition: {name} (in {file})"
  | .duplicateFile file => s!"Duplicate file in project: {file}"
  | .duplicateIdentifier name _ => s!"Duplicate identifier: {name}"
  | .packageConflict pattern package first second =>
    s!"Type {pattern} is defined by both package {first} and package {second}, " ++
      s!"which are visible together from package {package}"
  | .unknownType name file => s!"Unknown type: {name} (referenced from {file})"
  | .cyclicAlias name => s!"Type alias {name} refers to itself"
  | .selfContaining name => s!"Type {name} contains itself by value"
  | .noMatchingOverload call arguments _ => s!"No matching overload for call {call}({arguments})"
  | .ambiguousCall call arguments candidates _ =>
    s!"Ambiguous call {call}({arguments}): {candidates} equally specific definitions match"
  | .unsplittableCall call arguments _ =>
    s!"Common feature adoption is not possible for call {call}({arguments})"
  | .mixedVoidness call _ =>
    s!"Call {call} mixes void and non-void definitions across union alternatives"
  | .unresolvedGeneric call _ =>
    s!"Return type of call {call} depends on unresolved generic arguments"
  | .undefinedVariable name _ => s!"Undefined variable: {name}"
  | .typeMismatch expected got _ => s!"Type mismatch: expected {expected}, got {got}"
  | .unknownField field type _ => s!"Unknown field {field} in type {type}"
  | .notARecord type _ => s!"Expression of type {type} is not a struct"
  | .notAPointer type _ => s!"Cannot dereference value of type {type}"
  | .notIndexable type _ => s!"Value of type {type} is not indexable"
  | .voidValue call _ => s!"Call {call} returns nothing and cannot be used as a value"
  | .assignmentToConst name _ => s!"Cannot assign to constant {name}"
  | .notAssignable _ => "Expression is not assignable"
  | .misplacedLoopControl keyword _ => s!"{keyword} outside of a loop"
  | .missingReturnValue function _ => s!"Function {function} must return a value"
  | .unexpectedReturnValue function _ => s!"Function {function} does not return a value"
  | .missingReturnPath function _ =>
    s!"Function {function} does not return a value on every path"
  | .unreachableCode function _ => s!"Unreachable code in function {function}"
  | .notAddressable _ => "Cannot take the address of a temporary value"
  | .unreadable reason => s!"IO error: {reason}"
  | .malformed reason => s!"Malformed project description: {reason}"
  | .limitReached => "Analysis went past its depth limit"
  | .inconsistent cause => s!"Internal compiler error: {cause.message}"

/-- The stable code of a diagnostic. -/
def code : Diagnostic → String
  | .duplicateType .. => "E0101"
  | .duplicateFunction .. => "E0102"
  | .duplicateFile .. => "E0103"
  | .duplicateIdentifier .. => "E0104"
  | .packageConflict .. => "E0105"
  | .unknownType .. => "E0201"
  | .cyclicAlias .. => "E0202"
  | .noMatchingOverload .. => "E0203"
  | .ambiguousCall .. => "E0204"
  | .unsplittableCall .. => "E0205"
  | .mixedVoidness .. => "E0206"
  | .unresolvedGeneric .. => "E0207"
  | .selfContaining .. => "E0208"
  | .undefinedVariable .. => "E0301"
  | .typeMismatch .. => "E0302"
  | .unknownField .. => "E0303"
  | .notARecord .. => "E0304"
  | .notAPointer .. => "E0305"
  | .notIndexable .. => "E0306"
  | .voidValue .. => "E0307"
  | .assignmentToConst .. => "E0308"
  | .notAssignable .. => "E0309"
  | .misplacedLoopControl .. => "E0310"
  | .missingReturnValue .. => "E0311"
  | .unexpectedReturnValue .. => "E0312"
  | .missingReturnPath .. => "E0313"
  | .unreachableCode .. => "E0314"
  | .notAddressable .. => "E0315"
  | .unreadable .. => "E0901"
  | .malformed .. => "E0902"
  | .limitReached => "E0998"
  | .inconsistent .. => "E0999"

/-- The position a diagnostic points at, if it concerns one. -/
def span? : Diagnostic → Option Span
  | .duplicateFunction _ _ span | .duplicateIdentifier _ span
  | .noMatchingOverload _ _ span | .ambiguousCall _ _ _ span
  | .unsplittableCall _ _ span | .mixedVoidness _ span | .unresolvedGeneric _ span
  | .undefinedVariable _ span | .typeMismatch _ _ span | .unknownField _ _ span
  | .notARecord _ span | .notAPointer _ span | .notIndexable _ span | .voidValue _ span
  | .assignmentToConst _ span | .notAssignable span | .misplacedLoopControl _ span
  | .missingReturnValue _ span | .unexpectedReturnValue _ span | .missingReturnPath _ span
  | .unreachableCode _ span | .notAddressable span => some span
  | _ => none

/-- Whether the cause is inconsistent input rather than a fault of the program checked. -/
def isInternal : Diagnostic → Bool
  | .inconsistent _ => true
  | _ => false

/-- What the writer of the program could do about it, where that is clear. -/
def hint? : Diagnostic → Option String
  | .ambiguousCall .. => some "pass explicit generic arguments or add a more specific overload"
  | .unsplittableCall .. =>
    some "every alternative of the union argument needs a matching overload"
  | .mixedVoidness .. =>
    some "make all overloads reached through the union return a value, or none"
  | .unresolvedGeneric .. => some "call this function from a non-generic context"
  | .packageConflict .. => some "rename the type in one of the two packages"
  | .selfContaining .. => some "store one of the types behind a pointer to break the cycle"
  | .notAddressable .. =>
    some "store the value in a variable and take the address of the variable"
  | .inconsistent .. => some "this is a compiler bug"
  | _ => none

end Diagnostic

end Accord
