import PhpLint.Plugin.Basic

/-! Constructors that leave out the call of an ancestor's constructor. -/
namespace PhpLint.Rule.ParentConstructor

/-- The nearest ancestor with a constructor that can be called. -/
def ancestorToCall? (db : ProjectDatabase) (c : ClassDeclaration) : Option ClassDeclaration :=
  (db.ancestors c.name).find? fun a => a.constructor?.any (!·.attributes.abstract)

def defect? (db : ProjectDatabase) (c : ClassDeclaration) : Option Defect := do
  guard (c.kind == .classKind)
  let constructor ← c.constructor?
  guard (!constructor.callsParentConstructor)
  let ancestor ← ancestorToCall? db c
  return { Defect.detached c.fileName constructor.line constructor.name "pr02" .warning
      s!"{c.name}::__construct does not call the constructor of {ancestor.name}" with
    inClass := some c.name
    inMethod := some constructor.name }

def plugin : Plugin :=
  .ofProjectLint "php-project-parent-constructor" "Missed parent constructor call" {
    codes := [⟨"pr02", .warning, "Constructor does not call the parent constructor"⟩]
    defects := fun db => .ok (db.classes.values.filterMap (defect? db)) }

end PhpLint.Rule.ParentConstructor
