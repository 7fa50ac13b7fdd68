import Yog.Attribute
import Mathlib.Data.List.Basic

/-!
# Assigning to an attribute

The instruction `store_attr` (`insts.def`) with the setter of a property (`property.c`). It has a
lookup of its own: the table of the object and that of its class, but no class further up and no
hook.
-/

namespace Yog

variable {O K M F : Type}

/-- Whether the class of the attribute has an `exec_set_descr`. -/
def Attribute.hasSetDescr : Attribute O K M F → Bool
  | property _ _ | readOnlyProperty _ | field _ => true
  | _ => false

inductive StoreError (O K M : Type) where
  | attr (e : AttrError O K M)
  /-- `can't set attribute to %C object` -/
  | cantSet (obj : Value O K M)
  deriving DecidableEq

/-- What an assignment does: it calls the method made of a setter, hands the value to a field of a
structure, or enters the value into the table of the object. -/
inductive Stored (O K M F : Type) where
  | called (method : Access O K M F) (val : Attribute O K M F)
  | field (self : Value O K M) (f : F) (val : Attribute O K M F)
  | entered (w : Objects O K M F)

/-- `YogTable_insert` of a table of attributes. -/
def insertAttr (attrs : List (ID × Attribute O K M F)) (name : ID) (val : Attribute O K M F) :
    List (ID × Attribute O K M F) :=
  (name, val) :: attrs.filter (·.1 ≠ name)

namespace Objects

variable (w : Objects O K M F)

/-- The flag `HAS_ATTRS` of a pointer. -/
def hasAttrsFlag : Value O K M → Bool
  | .obj o => w.hasAttrs o
  | .node _ => true
  | _ => false

/-- The method that `exec_set_descr` of `property.c` makes of the setter. As for a getter, that it is
callable is asserted behind it. -/
def setterMethod (attr : Attribute O K M F) (obj : Value O K M) :
    Except (StoreError O K M) (Access O K M F) :=
  match attr with
  | .property _ setter =>
    match setter.immediate? with
    | some v => .error (.attr (.notCallable (w.getClass v)))
    | none =>
      if setter.hasGetDescr then
        (w.callGetDescr setter obj ((w.getClass obj).map .klass)).mapError .attr
      else .error (.attr (.assertion "can't make instance method"))
  | _ => .error (.attr .undefined)

/-- The `exec_set_descr` of a property and of a field. -/
def execSetDescr (attr : Attribute O K M F) (obj : Value O K M) (val : Attribute O K M F) :
    Except (StoreError O K M) (Stored O K M F) :=
  match attr with
  | .field f => .ok (.field obj f val)
  | attr => (w.setterMethod attr obj).map (.called · val)

/-- What the lookup of `store_attr` finds. -/
def storeLookup (obj : Value O K M) (classOfObj : K) (name : ID) : Option (Attribute O K M F) :=
  (w.ownAttr obj name).or (w.objGetAttr (.node (.klass classOfObj)) name)

variable [DecidableEq O] [DecidableEq K] [DecidableEq M]

/-- `YogObj_set_attr_id`. The table of a module is that of the module classes its inclusions made. -/
def setAttrId (shares : M → O → Bool) (obj : Value O K M) (name : ID) (val : Attribute O K M F) :
    Objects O K M F :=
  match obj with
  | .obj o =>
    { w with
      attrs := Function.update w.attrs o (insertAttr (w.attrs o) name val)
      nodeAttrs := fun n =>
        match n with
        | .klass _ => w.nodeAttrs n
        | .moduleClass m =>
          if shares m o then insertAttr (w.nodeAttrs n) name val else w.nodeAttrs n }
  | .node n =>
    { w with nodeAttrs := Function.update w.nodeAttrs n (insertAttr (w.nodeAttrs n) name val) }
  | _ => w

/-- The instruction `store_attr`. -/
def storeAttr (shares : M → O → Bool) (obj : Value O K M) (name : ID) (val : Attribute O K M F) :
    Except (StoreError O K M) (Stored O K M F) :=
  match w.getClass obj with
  | none => .error (.attr .undefined)
  | some classOfObj =>
    match w.storeLookup obj classOfObj name with
    | some attr =>
      if attr.hasSetDescr then w.execSetDescr attr obj val
      else if w.hasAttrsFlag obj then .ok (.entered (w.setAttrId shares obj name val))
      else .error (.cantSet obj)
    | none =>
      if w.hasAttrsFlag obj then .ok (.entered (w.setAttrId shares obj name val))
      else .error (.attr (.noAttribute obj name))

end Objects

end Yog
