/-
# Editing sessions

A session holds a text that is being edited, the listing that was last read from
it, and the member that was last assembled from that.  Nothing is done again that
would give the same result: the flags say what is behind the text or the listing.
-/
import JvmListing.Reading.Meaning
import JvmListing.Assembly.Member

namespace JvmListing

/-- The state of an editing session. -/
structure Session where
  dialect : Dialect
  options : AssemblyOptions := {}
  text : String := ""
  /-- Has the text changed since it was last read? -/
  dirty : Bool := true
  /-- Is the listing older than the text? -/
  listingOutdated : Bool := true
  /-- Is the member older than the listing or the options? -/
  outputOutdated : Bool := true
  listing : Option Listing := none
  lastMethod : Option AssembledMethod := none
  lastField : Option FieldNode := none

namespace Session

/-- Changes the class that declares the member. -/
def setSelfType (s : Session) (selfType : String) : Session :=
  { s with options.selfType := selfType, outputOutdated := true }

/-- Replaces the text, and says whether that changed it. -/
def setText (s : Session) (text : String) : Session × Bool :=
  if text = s.text then (s, false)
  else ({ s with text := text, dirty := true, listingOutdated := true }, true)

/-- Reads the text if it changed, and says whether there was anything to do.  A text
that cannot be read leaves the listing as it was. -/
def update (s : Session) : Session × ReadResult Bool :=
  if !s.dirty then (s, .ok false)
  else
    match Listing.read s.dialect s.text with
    | .error e => ({ s with dirty := false }, .error e)
    | .ok l =>
      ({ s with
          dirty := false
          listing := some l
          listingOutdated := false
          outputOutdated := true },
       .ok true)

/-- The session without results. -/
def withoutResults (s : Session) : Session := { s with lastMethod := none, lastField := none }

/-- Assembles a method, unless the last one is current.  A listing of something else is
refused at once. -/
def generateMethod (s : Session) (helpers : Helpers) : Session × AssemblyResult AssembledMethod :=
  match s.outputOutdated, s.lastMethod with
  | false, some a => (s, .ok a)
  | _, _ =>
    match s.listing with
    | none => (s.withoutResults, .error ⟨.notGenerated, {}⟩)
    | some l =>
      if l.method?.isNone then (s.withoutResults, .error ⟨.notMethod, l.definition.position⟩)
      else
        match assembleMethod s.options helpers l with
        | .error e => (s.withoutResults, .error e)
        | .ok a => ({ s.withoutResults with lastMethod := some a, outputOutdated := false }, .ok a)

/-- Assembles a field, unless the last one is current. -/
def generateField (s : Session) : Session × AssemblyResult FieldNode :=
  match s.outputOutdated, s.lastField with
  | false, some f => (s, .ok f)
  | _, _ =>
    match s.listing with
    | none => (s.withoutResults, .error ⟨.notGenerated, {}⟩)
    | some l =>
      match assembleField l with
      | .error e => (s.withoutResults, .error e)
      | .ok f => ({ s.withoutResults with lastField := some f, outputOutdated := false }, .ok f)

/-- The first entry of the listing's body that starts on a line. -/
def entryOnLine? (s : Session) (line : Nat) : Option Entry :=
  s.listing.bind fun l => l.body.entryOnLine? line

end Session

end JvmListing
