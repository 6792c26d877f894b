/-
# Annotations stored and written again

Storing an annotation forgets two things, where it was written and whether it is
visible, and spells two kinds of names anew: those of annotation types and of enum
types become descriptors.  Writing a stored annotation puts both back as far as it
can.  So the two are inverse to each other between

* written annotations without positions that are visible throughout or nowhere
  (`Annot.withVisible`), and
* stored annotations that name classes by descriptors and whose handles say of an
  interface what their tag says (`AnnotNode.isRegular`).

Every stored form of a written annotation is regular, so no weaker condition on
stored annotations would do.
-/
import JvmListing.Listing.Stored
import JvmListing.Proofs.Positions
import Mathlib.Data.List.Basic

namespace JvmListing

/-! ## Names and descriptors -/

/-- Does the text start with `L` and end with `;`? -/
def isClassDescriptor (desc : String) : Bool :=
  desc.toList.head? = some 'L' && desc.toList.getLast? = some ';'

theorem toList_classDescriptor (name : String) :
    (classDescriptor name).toList = 'L' :: (name.toList ++ [';']) := by
  simp [classDescriptor]

theorem isClassDescriptor_classDescriptor (name : String) :
    isClassDescriptor (classDescriptor name) = true := by
  rw [isClassDescriptor, toList_classDescriptor, ← List.cons_append, List.getLast?_concat]
  rfl

theorem classNameOf_classDescriptor (name : String) :
    classNameOf (classDescriptor name) = name := by
  rw [classNameOf, toList_classDescriptor]
  simp

/-- Apart from `L` and `;` a class descriptor is the name of a class. -/
theorem exists_name_of_isClassDescriptor {desc : String} (h : isClassDescriptor desc = true) :
    ∃ name, desc = classDescriptor name := by
  obtain ⟨hfirst, hlast⟩ := by simpa [isClassDescriptor] using h
  cases hdesc : desc.toList with
  | nil =>
      rw [hdesc] at hfirst
      cases hfirst
  | cons c cs =>
      rw [hdesc] at hfirst hlast
      cases hfirst
      -- `L` is not `;`, so the last character is another one
      have hne : cs ≠ [] := by
        rintro rfl
        exact absurd (Option.some.inj hlast) (by decide)
      rw [List.getLast?_cons_of_ne_nil hne, List.getLast?_eq_some_getLast hne,
        Option.some.injEq] at hlast
      refine ⟨String.ofList cs.dropLast, String.ext ?_⟩
      rw [toList_classDescriptor, hdesc, String.toList_ofList, ← hlast,
        List.dropLast_append_getLast hne]

theorem classDescriptor_classNameOf {desc : String} (h : isClassDescriptor desc = true) :
    classDescriptor (classNameOf desc) = desc := by
  obtain ⟨name, rfl⟩ := exists_name_of_isClassDescriptor h
  rw [classNameOf_classDescriptor]

/-! ## Handles -/

theorem HandleRef.toRef_toHandle (h : HandleRef) : h.toHandle.toRef = h := rfl

/-- Does the handle say that its owner is an interface exactly where its tag does? -/
def Handle.isRegular (h : Handle) : Bool := h.itf == (h.tag == .invokeInterface)

theorem Handle.toHandle_toRef {h : Handle} (hh : h.isRegular = true) : h.toRef.toHandle = h := by
  obtain ⟨tag, owner, name, desc, itf⟩ := h
  have hitf : itf = (tag == .invokeInterface) := by simpa [isRegular] using hh
  rw [hitf]
  rfl

theorem HandleRef.isRegular_toHandle (h : HandleRef) : h.toHandle.isRegular = true :=
  beq_self_eq_true _

/-- Is the handle regular, if the constant is one? -/
def Const.isRegular : Const Handle → Bool
  | .handle h => h.isRegular
  | _ => true

theorem Const.isRegular_toHandle (c : Const HandleRef) :
    (c.map HandleRef.toHandle).isRegular = true := by
  cases c with
  | handle h => exact h.isRegular_toHandle
  | _ => rfl

theorem Const.toRef_toHandle (c : Const HandleRef) :
    (c.map HandleRef.toHandle).map Handle.toRef = c := by
  rw [Const.map_map]
  exact c.map_id

theorem Const.toHandle_toRef {c : Const Handle} (h : c.isRegular = true) :
    (c.map Handle.toRef).map HandleRef.toHandle = c := by
  cases c with
  | handle h' => exact congrArg Const.handle (Handle.toHandle_toRef h)
  | _ => rfl

/-! ## Written annotations -/

mutual
/-- The annotation, with every annotation inside it, as visible as `visible` says. -/
def Annot.withVisible (visible : Bool) : Annot → Annot
  | .mk _ type args position => .mk visible type (Annot.withVisibleArgs visible args) position

def Annot.withVisibleArgs (visible : Bool) : List (String × AnnotArg) → List (String × AnnotArg)
  | [] => []
  | (name, arg) :: rest => (name, arg.withVisible visible) :: Annot.withVisibleArgs visible rest

def AnnotArg.withVisible (visible : Bool) : AnnotArg → AnnotArg
  | .const c => .const c
  | .enum type name => .enum type name
  | .annot a => .annot (a.withVisible visible)
  | .list args => .list (AnnotArg.withVisibleList visible args)

def AnnotArg.withVisibleList (visible : Bool) : List AnnotArg → List AnnotArg
  | [] => []
  | arg :: rest => arg.withVisible visible :: AnnotArg.withVisibleList visible rest
end

section Written

variable (visible : Bool)

mutual
theorem Annot.toAnnot_toNode : ∀ a : Annot,
    a.toNode.toAnnot visible = (a.withVisible visible).unplaced
  | .mk _ type args _ => by
      rw [Annot.toNode, AnnotNode.toAnnot, classNameOf_classDescriptor, Annot.toArgs_toValues args]
      rfl

theorem Annot.toArgs_toValues : ∀ args : List (String × AnnotArg),
    AnnotNode.toArgs visible (Annot.toValues args) =
      Annot.unplacedArgs (Annot.withVisibleArgs visible args)
  | [] => rfl
  | (name, arg) :: rest => by
      rw [Annot.toValues, AnnotNode.toArgs, AnnotArg.toArg_toValue arg, Annot.toArgs_toValues rest]
      rfl

theorem AnnotArg.toArg_toValue : ∀ arg : AnnotArg,
    arg.toValue.toArg visible = (arg.withVisible visible).unplaced
  | .const c => by
      rw [AnnotArg.toValue, AnnotValue.toArg, Const.toRef_toHandle]
      rfl
  | .enum type name => by
      rw [AnnotArg.toValue, AnnotValue.toArg, classNameOf_classDescriptor]
      rfl
  | .annot a => by
      rw [AnnotArg.toValue, AnnotValue.toArg, Annot.toAnnot_toNode a]
      rfl
  | .list args => by
      rw [AnnotArg.toValue, AnnotValue.toArg, AnnotArg.toArgList_toValueList args]
      rfl

theorem AnnotArg.toArgList_toValueList : ∀ args : List AnnotArg,
    AnnotValue.toArgList visible (AnnotArg.toValueList args) =
      AnnotArg.unplacedList (AnnotArg.withVisibleList visible args)
  | [] => rfl
  | arg :: rest => by
      rw [AnnotArg.toValueList, AnnotValue.toArgList, AnnotArg.toArg_toValue arg,
        AnnotArg.toArgList_toValueList rest]
      rfl
end

end Written

/-! ## Stored annotations -/

mutual
/-- Are all annotation and enum types given by descriptors, and all handles regular? -/
def AnnotNode.isRegular : AnnotNode → Bool
  | .mk desc values => isClassDescriptor desc && AnnotNode.areRegular values

def AnnotNode.areRegular : List (String × AnnotValue) → Bool
  | [] => true
  | (_, value) :: rest => value.isRegular && AnnotNode.areRegular rest

def AnnotValue.isRegular : AnnotValue → Bool
  | .const c => c.isRegular
  | .enum desc _ => isClassDescriptor desc
  | .annot a => a.isRegular
  | .array values => AnnotValue.areRegular values

def AnnotValue.areRegular : List AnnotValue → Bool
  | [] => true
  | value :: rest => value.isRegular && AnnotValue.areRegular rest
end

mutual
theorem Annot.isRegular_toNode : ∀ a : Annot, a.toNode.isRegular = true
  | .mk _ type args _ => by
      rw [Annot.toNode, AnnotNode.isRegular, isClassDescriptor_classDescriptor,
        Annot.areRegular_toValues args]
      rfl

theorem Annot.areRegular_toValues : ∀ args : List (String × AnnotArg),
    AnnotNode.areRegular (Annot.toValues args) = true
  | [] => rfl
  | (name, arg) :: rest => by
      rw [Annot.toValues, AnnotNode.areRegular, AnnotArg.isRegular_toValue arg,
        Annot.areRegular_toValues rest]
      rfl

theorem AnnotArg.isRegular_toValue : ∀ arg : AnnotArg, arg.toValue.isRegular = true
  | .const c => c.isRegular_toHandle
  | .enum type _ => isClassDescriptor_classDescriptor type
  | .annot a => Annot.isRegular_toNode a
  | .list args => AnnotArg.areRegular_toValueList args

theorem AnnotArg.areRegular_toValueList : ∀ args : List AnnotArg,
    AnnotValue.areRegular (AnnotArg.toValueList args) = true
  | [] => rfl
  | arg :: rest => by
      rw [AnnotArg.toValueList, AnnotValue.areRegular, AnnotArg.isRegular_toValue arg,
        AnnotArg.areRegular_toValueList rest]
      rfl
end

section Stored

variable (visible : Bool)

mutual
theorem AnnotNode.toNode_of_isRegular : ∀ n : AnnotNode, n.isRegular = true →
    (n.toAnnot visible).toNode = n
  | .mk desc values, h => by
      obtain ⟨hdesc, hvalues⟩ := Bool.and_eq_true_iff.mp h
      rw [AnnotNode.toAnnot, Annot.toNode, classDescriptor_classNameOf hdesc,
        AnnotNode.toValues_of_areRegular values hvalues]

theorem AnnotNode.toValues_of_areRegular : ∀ values : List (String × AnnotValue),
    AnnotNode.areRegular values = true →
    Annot.toValues (AnnotNode.toArgs visible values) = values
  | [], _ => rfl
  | (name, value) :: rest, h => by
      obtain ⟨hvalue, hrest⟩ := Bool.and_eq_true_iff.mp h
      rw [AnnotNode.toArgs, Annot.toValues, AnnotValue.toValue_of_isRegular value hvalue,
        AnnotNode.toValues_of_areRegular rest hrest]

theorem AnnotValue.toValue_of_isRegular : ∀ value : AnnotValue, value.isRegular = true →
    (value.toArg visible).toValue = value
  | .const c, h => congrArg AnnotValue.const (Const.toHandle_toRef h)
  | .enum desc name, h => by
      rw [AnnotValue.toArg, AnnotArg.toValue, classDescriptor_classNameOf h]
  | .annot a, h => congrArg AnnotValue.annot (AnnotNode.toNode_of_isRegular a h)
  | .array values, h => congrArg AnnotValue.array (AnnotValue.toValueList_of_areRegular values h)

theorem AnnotValue.toValueList_of_areRegular : ∀ values : List AnnotValue,
    AnnotValue.areRegular values = true →
    AnnotArg.toValueList (AnnotValue.toArgList visible values) = values
  | [], _ => rfl
  | value :: rest, h => by
      obtain ⟨hvalue, hrest⟩ := Bool.and_eq_true_iff.mp h
      rw [AnnotValue.toArgList, AnnotArg.toValueList, AnnotValue.toValue_of_isRegular value hvalue,
        AnnotValue.toValueList_of_areRegular rest hrest]
end

/-- A stored annotation is what its written form is stored as exactly if it is regular. -/
theorem AnnotNode.toNode_toAnnot_iff (n : AnnotNode) :
    (n.toAnnot visible).toNode = n ↔ n.isRegular = true := by
  constructor
  · intro h
    rw [← h]
    exact Annot.isRegular_toNode _
  · exact toNode_of_isRegular visible n

end Stored

/-! ## Lists of annotations -/

@[simp] theorem AnnotNode.visible_toAnnot (visible : Bool) (n : AnnotNode) :
    (n.toAnnot visible).visible = visible := by
  cases n
  rfl

/-- Annotations that are written with a visibility are stored among those of that visibility. -/
theorem storeAnnots_writeAnnots_eq (shown hidden : List AnnotNode) :
    storeAnnots (writeAnnots shown hidden) =
      (shown.map fun n => (n.toAnnot true).toNode,
        hidden.map fun n => (n.toAnnot false).toNode) := by
  simp [storeAnnots, writeAnnots, List.filter_map, Function.comp_def]

theorem map_toNode_toAnnot (visible : Bool) {nodes : List AnnotNode}
    (h : ∀ n ∈ nodes, n.isRegular = true) :
    (nodes.map fun n => (n.toAnnot visible).toNode) = nodes := by
  conv_rhs => rw [← List.map_id nodes]
  exact List.map_congr_left fun n hn => n.toNode_of_isRegular visible (h n hn)

/-- Writing a stored annotation undoes storing it up to positions and visibility, storing a written
one undoes writing it exactly for regular annotations, and the same goes for lists of them. -/
theorem storeAnnots_writeAnnots_inverse :
    (∀ (a : Annot) (visible : Bool), a.toNode.toAnnot visible = (a.withVisible visible).unplaced)
    ∧ (∀ (n : AnnotNode) (visible : Bool),
        (n.toAnnot visible).toNode = n ↔ n.isRegular = true)
    ∧ (∀ shown hidden : List AnnotNode, (∀ n ∈ shown ++ hidden, n.isRegular = true) →
        storeAnnots (writeAnnots shown hidden) = (shown, hidden))
    ∧ ∀ annots : List Annot,
        writeAnnots (storeAnnots annots).1 (storeAnnots annots).2 =
          ((annots.filter (·.visible)).map fun a => (a.withVisible true).unplaced)
            ++ (annots.filter (!·.visible)).map fun a => (a.withVisible false).unplaced := by
  refine ⟨fun a visible => a.toAnnot_toNode visible, fun n visible => n.toNode_toAnnot_iff visible,
    ?_, ?_⟩
  · intro shown hidden h
    obtain ⟨hshown, hhidden⟩ := List.forall_mem_append.mp h
    rw [storeAnnots_writeAnnots_eq, map_toNode_toAnnot true hshown,
      map_toNode_toAnnot false hhidden]
  · intro annots
    rw [writeAnnots, storeAnnots, List.map_map, List.map_map]
    congr 1
    · exact List.map_congr_left fun a _ => a.toAnnot_toNode true
    · exact List.map_congr_left fun a _ => a.toAnnot_toNode false

/-- A list with an annotation that holds an enum constant and the handle of an interface method. -/
def nestedNode : AnnotNode :=
  .mk "La/Outer;" [("list", .array [.annot (.mk "L;" [("kind", .enum "La/Kind;" "ONE")]),
    .const (.handle ⟨.invokeInterface, "a/Api", "call", "()V", true⟩)])]

/-- The descriptor of a primitive is not that of a class. -/
def primitiveNode : AnnotNode := .mk "I" []

theorem storeAnnots_writeAnnots_inverse_nested :
    (∀ n ∈ [nestedNode] ++ [nestedNode, .mk "La/A;" []], n.isRegular = true)
      ∧ storeAnnots (writeAnnots [nestedNode] [nestedNode, .mk "La/A;" []]) =
        ([nestedNode], [nestedNode, .mk "La/A;" []])
      ∧ (primitiveNode.toAnnot true).toNode ≠ primitiveNode := by
  have hregular : ∀ n ∈ [nestedNode] ++ [nestedNode, .mk "La/A;" []], n.isRegular = true := by
    decide +kernel
  obtain ⟨-, hiff, hlists, -⟩ := storeAnnots_writeAnnots_inverse
  refine ⟨hregular, hlists _ _ hregular, ?_⟩
  intro h
  have hprimitive := (hiff primitiveNode true).mp h
  exact absurd hprimitive (by decide +kernel)

end JvmListing
