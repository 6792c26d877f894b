/-
# Trees of annotations

An annotation holds arguments, which hold annotations and lists, so what is said
of an annotation is mostly said of every part of it.  `Annot.all` does that for any
test of the parts.  Two tests matter to texts: whether the names of a tree are words
and its values exist (`formedTest`), and whether the values and names can be told
apart from something else where a dialect writes them (`readableTest`).
-/
import JvmListing.Reading.Meaning
import JvmListing.Proofs.Plain
import JvmListing.Proofs.Positions

namespace JvmListing

/-! ## Induction -/

/-- What has to be shown of annotations and arguments from their parts. -/
structure AnnotSteps (P : Annot → Prop) (Q : AnnotArg → Prop) : Prop where
  node : ∀ visible type args position, (∀ x ∈ args, Q x.2) → P (.mk visible type args position)
  const : ∀ c, Q (.const c)
  enum : ∀ type name, Q (.enum type name)
  annot : ∀ a, P a → Q (.annot a)
  list : ∀ args, (∀ arg ∈ args, Q arg) → Q (.list args)

namespace AnnotSteps

variable {P : Annot → Prop} {Q : AnnotArg → Prop}

mutual
theorem holds (h : AnnotSteps P Q) : ∀ a, P a
  | .mk visible type args position => h.node visible type args position (holdsArgs h args)

theorem holdsArgs (h : AnnotSteps P Q) : ∀ args : List (String × AnnotArg), ∀ x ∈ args, Q x.2
  | [] => fun _ hx => nomatch hx
  | (_, arg) :: args => List.forall_mem_cons.mpr ⟨holdsArg h arg, holdsArgs h args⟩

theorem holdsArg (h : AnnotSteps P Q) : ∀ arg, Q arg
  | .const c => h.const c
  | .enum type name => h.enum type name
  | .annot a => h.annot a (holds h a)
  | .list args => h.list args (holdsList h args)

theorem holdsList (h : AnnotSteps P Q) : ∀ args : List AnnotArg, ∀ arg ∈ args, Q arg
  | [] => fun _ hx => nomatch hx
  | arg :: args => List.forall_mem_cons.mpr ⟨holdsArg h arg, holdsList h args⟩
end

end AnnotSteps

/-! ## Tests of all parts -/

/-- A test of the parts of a tree: an annotation by its visibility, its type and the names of its
arguments, an enum constant by its type and its name. -/
structure AnnotTest where
  annot : Bool → String → List String → Bool
  const : Const HandleRef → Bool
  enum : String → String → Bool

mutual
/-- Do all parts of the annotation pass? -/
def Annot.all (t : AnnotTest) : Annot → Bool
  | .mk visible type args _ => t.annot visible type (args.map Prod.fst) && Annot.allArgs t args

def Annot.allArgs (t : AnnotTest) : List (String × AnnotArg) → Bool
  | [] => true
  | (_, arg) :: args => arg.all t && Annot.allArgs t args

def AnnotArg.all (t : AnnotTest) : AnnotArg → Bool
  | .const c => t.const c
  | .enum type name => t.enum type name
  | .annot a => a.all t
  | .list args => AnnotArg.allList t args

def AnnotArg.allList (t : AnnotTest) : List AnnotArg → Bool
  | [] => true
  | arg :: args => arg.all t && AnnotArg.allList t args
end

section All

variable {t : AnnotTest}

theorem Annot.allArgs_iff {args : List (String × AnnotArg)} :
    allArgs t args = true ↔ ∀ x ∈ args, x.2.all t = true := by
  induction args with
  | nil => simp [allArgs]
  | cons x args ih => simp [allArgs, ih]

theorem AnnotArg.allList_iff {args : List AnnotArg} :
    allList t args = true ↔ ∀ arg ∈ args, arg.all t = true := by
  induction args with
  | nil => simp [allList]
  | cons arg args ih => simp [allList, ih]

theorem Annot.all_mk_iff {visible : Bool} {type : String} {args : List (String × AnnotArg)}
    {position : Position} : (Annot.mk visible type args position).all t = true
      ↔ t.annot visible type (args.map Prod.fst) = true ∧ ∀ x ∈ args, x.2.all t = true := by
  rw [all, Bool.and_eq_true, allArgs_iff]

theorem AnnotArg.all_list_iff {args : List AnnotArg} :
    (AnnotArg.list args).all t = true ↔ ∀ arg ∈ args, arg.all t = true := by
  rw [all, allList_iff]

end All

/-! ## Positions -/

theorem Annot.unplacedArgs_eq (args : List (String × AnnotArg)) :
    unplacedArgs args = args.map fun x => (x.1, x.2.unplaced) := by
  induction args with
  | nil => rfl
  | cons x args ih => exact congrArg ((x.1, x.2.unplaced) :: ·) ih

theorem AnnotArg.unplacedList_eq (args : List AnnotArg) :
    unplacedList args = args.map unplaced := by
  induction args with
  | nil => rfl
  | cons arg args ih => exact congrArg (arg.unplaced :: ·) ih

/-- No test looks at positions. -/
theorem Annot.all_unplaced (t : AnnotTest) (a : Annot) : a.unplaced.all t = a.all t := by
  have hsteps : AnnotSteps (fun a => a.unplaced.all t = true ↔ a.all t = true)
      (fun arg => arg.unplaced.all t = true ↔ arg.all t = true) := by
    constructor
    case node =>
      intro visible type args position ih
      have hnames : (args.map fun x => (x.1, x.2.unplaced)).map Prod.fst = args.map Prod.fst := by
        simp
      rw [unplaced, unplacedArgs_eq, all_mk_iff, all_mk_iff, hnames, List.forall_mem_map]
      exact and_congr_right fun _ => forall₂_congr ih
    case const => exact fun c => Iff.rfl
    case enum => exact fun type name => Iff.rfl
    case annot => exact fun a ih => ih
    case list =>
      intro args ih
      rw [AnnotArg.unplaced, AnnotArg.unplacedList_eq, AnnotArg.all_list_iff,
        AnnotArg.all_list_iff, List.forall_mem_map]
      exact forall₂_congr ih
  rw [Bool.eq_iff_iff]
  exact hsteps.holds a

/-! ## Formed and readable trees -/

def Ty.isArray : Ty → Bool
  | .array _ => true
  | _ => false

/-- Is there no blank in the text? -/
def isUnbroken (s : String) : Bool := s.toList.all fun c => !isBlank c

/-- Does the type of the constant exist, and the descriptor of the handle describe a type? -/
def Const.isFormed : Const HandleRef → Bool
  | .literal _ => true
  | .type t => Ty.ofDescriptor? t.descriptor = some t
  | .handle h => (Ty.ofDescriptor? h.desc).isSome

/-- Names are words, no annotation names an argument twice, and all annotations have the
visibility of the outermost one. -/
def formedTest (visible : Bool) : AnnotTest where
  annot v type names := v == visible && isPlainWord type && names.all isPlainWord && names.Nodup
  const := Const.isFormed
  enum type name := isPlainWord type && isPlainWord name

/-- Is the annotation made of words and values? -/
def Annot.isFormed (a : Annot) : Bool := a.all (formedTest a.visible)

/-- Can the constant be an argument in the dialect?  An array type is no constant of the keyword
dialect, where it starts as a list does; nor is a descriptor with a blank in it, or a handle whose
member cannot be referred to, in either dialect. -/
def Const.isReadable (d : Dialect) : Const HandleRef → Bool
  | .literal _ => true
  | .type t => isUnbroken t.descriptor && (d = .directive || !t.isArray)
  | .handle h => isMember h.owner h.name && isUnbroken h.desc

/-- An argument that is called `end`, in any case, ends its annotation in the directive dialect. -/
def readableTest (d : Dialect) : AnnotTest where
  annot _ _ names := d = .keyword || names.all fun name => !sameFolded name "end"
  const := Const.isReadable d
  enum _ _ := true

/-- Is no part of the annotation written as something else in the dialect? -/
def Annot.isReadable (d : Dialect) (a : Annot) : Bool := a.all (readableTest d)

end JvmListing
