import Yog.Inst

/-!
# The two lookups of an attribute

The VM reads an attribute in `load_attr` (`insts.def`), C code through `YogVal_get_attr` (`value.c`).
Each has a default and the hooks of `Class` and `Package` (`class.c`, `package.c`), and each has its
own copy of the descriptors: what becomes of a function, a native function, a class method
(`callable.c`, `classmethod.c`), a property (`property.c`) or a field of a structure (`ffi.c`).

`Class.lean` has the part of this that `super` depends on. Here a class is an object as well, with a
class of its own, and every kind of attribute is there.
-/

namespace Yog

/-- A node of a chain of classes: a `YogClass`, or a `ModuleClass` an inclusion made. -/
inductive Node (K M : Type) where
  | klass (k : K)
  | moduleClass (m : M)
  deriving DecidableEq

inductive Value (O K M : Type) where
  | fixnum (n : Int)
  | bool (b : Bool)
  | nil
  | symbol (id : ID)
  | obj (o : O)
  | node (n : Node K M)
  deriving DecidableEq

/-- An entry of a table of attributes. `value` stands for all that is no descriptor, and `f` for a
function or a field of a structure. -/
inductive Attribute (O K M F : Type) where
  | value (v : Value O K M)
  | function (f : F)
  | nativeFunction (f : F)
  | field (f : F)
  | classMethod (f : Attribute O K M F)
  | property (getter setter : Attribute O K M F)
  /-- a property that C code defines without a setter, which is `YUNDEF` -/
  | readOnlyProperty (getter : Attribute O K M F)
  deriving DecidableEq

/-- What an access gives: the value found, a `YogInstanceMethod`, a native one, what a field of `self`
holds, a function or another descriptor as it is, or what the getter of a property answers. A class
that is none is `YUNDEF`. -/
inductive Access (O K M F : Type) where
  | value (v : Value O K M)
  | instanceMethod (self : Value O K M) (f : F) (definingClass : Option (Node K M))
  | nativeInstanceMethod (self : Value O K M) (f : F)
  | field (self : Value O K M) (f : F)
  | descriptor (attr : Attribute O K M F)
  | answer (getter : Access O K M F)
  deriving DecidableEq

/-- The classes whose `call_get_attr` and `exec_get_attr` are not `NULL`. -/
inductive Hook where
  | klass
  | package
  deriving DecidableEq

inductive AttrError (O K M : Type) where
  /-- `%C object has no attribute "%I"` -/
  | noAttribute (obj : Value O K M) (name : ID)
  /-- `"%I" object is not callable`, with the class that is named -/
  | notCallable (klass : Option K)
  /-- a failed `YOG_ASSERT` -/
  | assertion (message : String)
  /-- `YogVal_get_class` of `YUNDEF` -/
  | undefined
  deriving DecidableEq

/-- What the lookups read of the objects. A class has a class, a `ModuleClass` has none, and
`height` says that every chain ends. -/
structure Objects (O K M F : Type) where
  cFixnum : K
  cBool : K
  cNil : K
  cSymbol : K
  classOf : O → K
  metaclass : K → K
  hasAttrs : O → Bool
  attrs : O → List (ID × Attribute O K M F)
  nodeAttrs : Node K M → List (ID × Attribute O K M F)
  super : Node K M → Option (Node K M)
  hook : K → Option Hook
  height : Node K M → Nat
  super_height : ∀ n s, super n = some s → height s < height n

variable {O K M F : Type}

def Value.isPtr : Value O K M → Bool
  | .obj _ => true
  | .node _ => true
  | _ => false

/-- The class or module class that a value is. -/
def Value.node? : Value O K M → Option (Node K M)
  | .node n => some n
  | _ => none

namespace Attribute

/-- Whether the class of the attribute has a `call_get_descr`. -/
def hasGetDescr : Attribute O K M F → Bool
  | value _ => false
  | _ => true

/-- The attribute, where it is no pointer. -/
def immediate? : Attribute O K M F → Option (Value O K M)
  | value v => if v.isPtr then none else some v
  | _ => none

end Attribute

namespace Objects

variable (w : Objects O K M F)

/-- `YogVal_get_class`; none is the `YUNDEF` that a `ModuleClass` has. -/
def getClass : Value O K M → Option K
  | .fixnum _ => some w.cFixnum
  | .bool _ => some w.cBool
  | .nil => some w.cNil
  | .symbol _ => some w.cSymbol
  | .obj o => some (w.classOf o)
  | .node (.klass k) => some (w.metaclass k)
  | .node (.moduleClass _) => none

/-- The class of a class, as a node. -/
def classOfNode (n : Node K M) : Option (Node K M) := (w.getClass (.node n)).map .klass

/-- `YogVal_get_descr` and the `call_get_descr` of each class. The answer of a getter is taken as it
is: that it is a pointer to something callable is asserted in both copies. -/
def callGetDescr :
    Attribute O K M F → Value O K M → Option (Node K M) →
      Except (AttrError O K M) (Access O K M F)
  | .value v, _, _ => .ok (.value v)
  | .function f, obj, klass => .ok (.instanceMethod obj f klass)
  | .nativeFunction f, obj, _ => .ok (.nativeInstanceMethod obj f)
  | .field f, obj, _ => .ok (.field obj f)
  | .classMethod f, _, klass =>
    if f.hasGetDescr then
      match klass with
      | none => .error .undefined
      | some k => callGetDescr f (.node k) (w.classOfNode k)
    else .error (.assertion "f is not callable")
  | .property getter _, obj, klass | .readOnlyProperty getter, obj, klass =>
    match getter.immediate? with
    | some v => .error (.notCallable (w.getClass v))
    | none =>
      if getter.hasGetDescr then (callGetDescr getter obj klass).map .answer
      else .error (.assertion "can't make instance method")

/-- The `exec_get_descr` of each class, and what `exec_get_attr` of `eval.c` does where there is
none. All but the property push what the other copy returns. -/
def execGetDescr (attr : Attribute O K M F) (obj : Value O K M) (klass : Option (Node K M)) :
    Except (AttrError O K M) (Access O K M F) :=
  match attr with
  | .value v => .ok (.value v)
  | .function f => w.callGetDescr (.function f) obj klass
  | .nativeFunction f => w.callGetDescr (.nativeFunction f) obj klass
  | .field f => w.callGetDescr (.field f) obj klass
  | .classMethod f => w.callGetDescr (.classMethod f) obj klass
  | .property getter _ | .readOnlyProperty getter =>
    match getter.immediate? with
    | some v => .error (.notCallable (w.getClass v))
    | none =>
      if getter.hasGetDescr then (w.callGetDescr getter obj klass).map .answer
      else .error (.assertion "can't make instance method")

/-- `YogObj_get_attr` -/
def objGetAttr (obj : Value O K M) (name : ID) : Option (Attribute O K M F) :=
  match obj with
  | .obj o => (w.attrs o).lookup name
  | .node n => (w.nodeAttrs n).lookup name
  | _ => none

/-- `YogObj_get_attr` of an object with the flag `HAS_ATTRS`, which a class has. -/
def ownAttr (obj : Value O K M) (name : ID) : Option (Attribute O K M F) :=
  match obj with
  | .obj o => if w.hasAttrs o then w.objGetAttr obj name else none
  | .node _ => w.objGetAttr obj name
  | _ => none

/-- `YogClass_get_attr_and_defining_class` -/
def getAttrAndDefiningClass (klass : Node K M) (name : ID) :
    Option (Attribute O K M F × Node K M) :=
  match w.objGetAttr (.node klass) name with
  | some attr => some (attr, klass)
  | none =>
    match _h : w.super klass with
    | none => none
    | some super => getAttrAndDefiningClass super name
termination_by w.height klass
decreasing_by exact w.super_height _ _ ‹_›

/-- `YogClass_get_attr` -/
def classGetAttr (klass : Node K M) (name : ID) : Option (Attribute O K M F) :=
  (w.getAttrAndDefiningClass klass name).map Prod.fst

/-- `exec_get_attr` of `eval.c` -/
def execGetAttr (obj : Value O K M) (k : K) (name : ID) :
    Except (AttrError O K M) (Access O K M F) :=
  match (w.ownAttr obj name).or (w.classGetAttr (.klass k) name) with
  | some attr => w.execGetDescr attr obj (some (.klass k))
  | none => .error (.noAttribute obj name)

/-- `get_attr_default` of `value.c`; none is `YUNDEF`. -/
def getAttrDefault (obj : Value O K M) (k : K) (name : ID) :
    Except (AttrError O K M) (Option (Access O K M F)) :=
  match w.ownAttr obj name with
  | some attr => (w.callGetDescr attr obj (some (.klass k))).map some
  | none =>
    match w.getAttrAndDefiningClass (.klass k) name with
    | some (attr, definingClass) => (w.callGetDescr attr obj (some definingClass)).map some
    | none => .ok none

/-- `call_get_attr` of `class.c` -/
def classCallGetAttr (obj : Value O K M) (k : K) (name : ID) :
    Except (AttrError O K M) (Option (Access O K M F)) :=
  match w.classGetAttr (.klass k) name with
  | some attr => (w.callGetDescr attr obj (some (.klass k))).map some
  | none =>
    match w.objGetAttr obj name with
    | some attr => (w.callGetDescr attr .nil obj.node?).map some
    | none => .ok none

/-- `exec_get_attr` of `class.c` -/
def classExecGetAttr (obj : Value O K M) (k : K) (name : ID) :
    Except (AttrError O K M) (Access O K M F) :=
  match w.classGetAttr (.klass k) name with
  | some attr => w.callGetDescr attr obj (some (.klass k))
  | none =>
    match w.objGetAttr obj name with
    | some attr => w.callGetDescr attr .nil obj.node?
    | none => .error (.noAttribute obj name)

/-- An attribute as it stands in its table. -/
def raw : Attribute O K M F → Access O K M F
  | .value v => .value v
  | attr => .descriptor attr

/-- `call_get_attr` of `package.c` -/
def packageCallGetAttr (obj : Value O K M) (k : K) (name : ID) :
    Except (AttrError O K M) (Option (Access O K M F)) :=
  match w.objGetAttr obj name with
  | some attr => .ok (some (raw attr))
  | none =>
    match w.classGetAttr (.klass k) name with
    | some attr => (w.callGetDescr attr obj (some (.klass k))).map some
    | none => .ok none

/-- `exec_get_attr` of `package.c` -/
def packageExecGetAttr (obj : Value O K M) (k : K) (name : ID) :
    Except (AttrError O K M) (Access O K M F) :=
  match w.objGetAttr obj name with
  | some attr => .ok (raw attr)
  | none =>
    match w.classGetAttr (.klass k) name with
    | some attr => w.callGetDescr attr obj (some (.klass k))
    | none => .error (.noAttribute obj name)

/-- The instruction `load_attr`. -/
def loadAttr (obj : Value O K M) (name : ID) : Except (AttrError O K M) (Access O K M F) :=
  match w.getClass obj with
  | none => .error .undefined
  | some k =>
    match w.hook k with
    | none => w.execGetAttr obj k name
    | some .klass => w.classExecGetAttr obj k name
    | some .package => w.packageExecGetAttr obj k name

/-- `YogVal_get_attr` -/
def valGetAttr (obj : Value O K M) (name : ID) :
    Except (AttrError O K M) (Option (Access O K M F)) :=
  match w.getClass obj with
  | none => .error .undefined
  | some k =>
    match w.hook k with
    | none => w.getAttrDefault obj k name
    | some .klass => w.classCallGetAttr obj k name
    | some .package => w.packageCallGetAttr obj k name

end Objects

end Yog
