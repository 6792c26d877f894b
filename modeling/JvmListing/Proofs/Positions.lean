/-
# Listings up to positions

A listing knows where each of its parts was written.  `unplaced` puts everything
at position zero, so two listings say the same if they are equal without their
positions.
-/
import JvmListing.Listing.Basic

namespace JvmListing

def Located.unplaced {α : Type} (l : Located α) : Located α := ⟨l.value, {}⟩

mutual
def Annot.unplaced : Annot → Annot
  | .mk visible type args _ => .mk visible type (Annot.unplacedArgs args) {}

def Annot.unplacedArgs : List (String × AnnotArg) → List (String × AnnotArg)
  | [] => []
  | (name, arg) :: args => (name, arg.unplaced) :: Annot.unplacedArgs args

def AnnotArg.unplaced : AnnotArg → AnnotArg
  | .annot a => .annot a.unplaced
  | .list args => .list (AnnotArg.unplacedList args)
  | .const c => .const c
  | .enum type name => .enum type name

def AnnotArg.unplacedList : List AnnotArg → List AnnotArg
  | [] => []
  | arg :: args => arg.unplaced :: AnnotArg.unplacedList args
end

/-- Of the statements only an annotation has positions inside. -/
def Statement.unplaced : Statement → Statement
  | .annot a => .annot a.unplaced
  | st => st

def Entry.unplaced (e : Entry) : Entry := ⟨e.value.unplaced, {}⟩

def Code.unplaced (code : Code) : Code := code.map Entry.unplaced

def Attributes.unplaced (a : Attributes) : Attributes :=
  ⟨a.signature.map Located.unplaced, a.thrown.map Located.unplaced, a.annots.map Annot.unplaced,
    a.deprecated⟩

def Param.unplaced (p : Param) : Param := { p with position := {} }

def MethodDef.unplaced (m : MethodDef) : MethodDef :=
  { m with
    params := m.params.map Param.unplaced, attributes := m.attributes.unplaced, position := {} }

def FieldDef.unplaced (f : FieldDef) : FieldDef :=
  { f with
    value := f.value.map Located.unplaced, attributes := f.attributes.unplaced, position := {} }

def Component.unplaced (c : Component) : Component :=
  { c with annots := c.annots.map Annot.unplaced }

def ClassDef.unplaced (c : ClassDef) : ClassDef :=
  { c with
    record := c.record.map (·.map Component.unplaced)
    fields := c.fields.map FieldDef.unplaced
    methods := c.methods.map fun (m, code) => (m.unplaced, Code.unplaced code)
    attributes := c.attributes.unplaced
    position := {} }

def Definition.unplaced : Definition → Definition
  | .class c => .class c.unplaced
  | .field f => .field f.unplaced
  | .method m => .method m.unplaced

/-- The listing without the places it was written at. -/
def Listing.unplaced (l : Listing) : Listing := ⟨l.definition.unplaced, l.code.map Code.unplaced⟩

/-- Bodies that say the same, entry by entry, are the same up to positions. -/
theorem Code.unplaced_congr {code code' : Code}
    (h : code.map (·.value.unplaced) = code'.map (·.value.unplaced)) :
    unplaced code = unplaced code' := by
  have hmap : ∀ c : Code, unplaced c = (c.map (·.value.unplaced)).map fun st => ⟨st, {}⟩ := by
    intro c
    rw [unplaced, List.map_map]
    rfl
  rw [hmap, hmap, h]

end JvmListing
