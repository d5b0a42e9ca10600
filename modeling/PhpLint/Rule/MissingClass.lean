import PhpLint.Plugin.Basic

/-! Parents, interfaces and traits that no file of the project declares. -/
namespace PhpLint.Rule.MissingClass

/-- Classes that the language brings along. -/
def builtinClasses : List String :=
  ["ArgumentCountError", "ArithmeticError", "ArrayAccess", "ArrayIterator", "ArrayObject",
    "BackedEnum", "BadFunctionCallException", "BadMethodCallException", "Closure", "Countable",
    "DateTime", "DateTimeImmutable", "DateTimeInterface", "DivisionByZeroError", "DomainException",
    "Error", "ErrorException", "Exception", "FilterIterator", "Generator",
    "InvalidArgumentException", "Iterator", "IteratorAggregate", "IteratorIterator",
    "JsonException", "JsonSerializable", "LengthException", "LogicException",
    "OutOfBoundsException", "OutOfRangeException", "OverflowException", "RangeException",
    "RecursiveIterator", "RuntimeException", "Serializable", "SplObjectStorage", "SplObserver",
    "SplSubject", "Stringable", "Throwable", "Traversable", "TypeError", "UnderflowException",
    "UnexpectedValueException", "UnitEnum", "ValueError", "stdClass"]

/-- Names of classes that are never reported unless settings say otherwise. -/
def defaultIgnored : List String :=
  ["PEAR", "PHPUnit_Framework_TestCase"]

/-- Whether a name needs no declaration, or has one. -/
def isKnown (ignored : List String) (db : ProjectDatabase) (name : String) : Bool :=
  let key := ProjectDatabase.key name
  (db.class? name).isSome || (ignored.map ProjectDatabase.key).contains key
    || (builtinClasses.map Text.fold).contains key

/-- The classes that a class refers to, each with the relation between them. -/
def relations (c : ClassDeclaration) : List (String × String) :=
  c.parents.map ("extends", ·) ++ c.interfaces.map ("implements", ·) ++ c.traits.map ("uses", ·)

def defect (c : ClassDeclaration) (relation name : String) : Defect :=
  { Defect.detached c.fileName c.line name "pr01" .error
      s!"{c.name} {relation} unknown {name}" with
    inClass := some c.name }

def inClass (ignored : List String) (db : ProjectDatabase) (c : ClassDeclaration) : List Defect :=
  (relations c).filterMap fun (relation, name) =>
    if isKnown ignored db name then none else some (defect c relation name)

def plugin (ignored : List String) : Plugin :=
  .ofProjectLint "php-project-missing-class" "Missing parent class" {
    codes := [⟨"pr01", .error, "Class, interface or trait is not declared in the project"⟩]
    defects := fun db => .ok (db.classes.values.flatMap (inClass ignored db)) }

end PhpLint.Rule.MissingClass
