import Yog.Inst

/-!
# Classes, method lookup and `super`

The lookup of an attribute along a chain of classes and included modules (`class.c`, `value.c`,
`eval.c`), the method a function becomes (`callable.c`), and the instruction `load_super`.

There are two ways to an attribute of an object. The instruction `load_attr` goes through
`exec_get_attr`, and C code, the binary operators among it, through `YogVal_get_attr`. Both search
the same classes, but they do not hand the same class to the method.
-/

namespace Yog

/-- A script function; `code` stands for its body. -/
structure YogFunction (κ : Type) where
  name : ID
  code : κ
  deriving DecidableEq

/-- A value in the table of a class: a script function, or anything else. -/
inductive Attr (κ : Type) where
  | function (f : YogFunction κ)
  | value (v : κ)
  deriving DecidableEq

/-- The table `attrs` of a class or a module. A `def` in the body binds the function to its own
name. -/
structure Attrs (κ : Type) where
  entries : List (ID × Attr κ)
  named : ∀ key f, (key, .function f) ∈ entries → f.name = key

def Attrs.lookup {κ : Type} (attrs : Attrs κ) (name : ID) : Option (Attr κ) :=
  attrs.entries.lookup name

/-- A node of a chain: a `YogClass`, or the `ModuleClass` an inclusion puts behind a class. Only the
last one has no `super`. -/
inductive YogClass (κ : Type) where
  | root (attrs : Attrs κ)
  | sub (attrs : Attrs κ) (super : YogClass κ)

structure YogObj (κ : Type) where
  klass : YogClass κ
  attrs : List (ID × Attr κ)

variable {κ : Type}

namespace YogClass

def attrs : YogClass κ → Attrs κ
  | root attrs => attrs
  | sub attrs _ => attrs

def super : YogClass κ → Option (YogClass κ)
  | root _ => none
  | sub _ super => some super

/-- `YogClass_get_attr_and_defining_class` -/
def getAttrAndDefiningClass (name : ID) : YogClass κ → Option (Attr κ × YogClass κ)
  | root attrs => (attrs.lookup name).map (·, root attrs)
  | sub attrs super =>
    match attrs.lookup name with
    | some attr => some (attr, sub attrs super)
    | none => super.getAttrAndDefiningClass name

/-- `YogClass_get_attr` -/
def getAttr (self : YogClass κ) (name : ID) : Option (Attr κ) :=
  (self.getAttrAndDefiningClass name).map Prod.fst

end YogClass

/-- `YogInstanceMethod` -/
structure InstanceMethod (κ : Type) where
  self : YogObj κ
  f : YogFunction κ
  definingClass : YogClass κ

/-- What an attribute access gives. -/
inductive Bound (κ : Type) where
  | method (m : InstanceMethod κ)
  | value (v : κ)

def Bound.method? : Bound κ → Option (InstanceMethod κ)
  | .method m => some m
  | .value _ => none

/-- `YogVal_get_descr` and `exec_get_descr`: of what `klass` the method is. -/
def getDescr (attr : Attr κ) (obj : YogObj κ) (klass : YogClass κ) : Bound κ :=
  match attr with
  | .function f => .method ⟨obj, f, klass⟩
  | .value v => .value v

/-- `YogObj_get_attr` -/
def YogObj.getAttr (obj : YogObj κ) (name : ID) : Option (Attr κ) := obj.attrs.lookup name

/-- `exec_get_attr` of `eval.c`; none is the `AttributeError`. -/
def execGetAttr (obj : YogObj κ) (name : ID) : Option (Bound κ) :=
  let classOfObj := obj.klass
  match obj.getAttr name with
  | some attr => some (getDescr attr obj classOfObj)
  | none => (classOfObj.getAttr name).map fun attr => getDescr attr obj classOfObj

/-- `get_attr_default` of `value.c`; none is `YUNDEF`. -/
def getAttrDefault (obj : YogObj κ) (name : ID) : Option (Bound κ) :=
  match obj.getAttr name with
  | some attr => some (getDescr attr obj obj.klass)
  | none => (obj.klass.getAttrAndDefiningClass name).map fun (attr, definingClass) =>
    getDescr attr obj definingClass

/-- The fields of a `YogScriptFrame` that `load_super` reads; `klass` is none for `YUNDEF`. -/
structure MethodFrame (κ : Type) where
  self : YogObj κ
  klass : Option (YogClass κ)
  name : ID
  code : κ

/-- The frame of `YogFunction_exec_for_instance` when a `YogInstanceMethod` is called, by
`YogInstanceMethod_exec` as by `YogInstanceMethod_call`. -/
def InstanceMethod.frame (m : InstanceMethod κ) : MethodFrame κ :=
  ⟨m.self, some m.definingClass, m.f.name, m.f.code⟩

inductive SuperError where
  | notFound
  | undefinedClass
  deriving DecidableEq

/-- The search of `load_super`, with the node that it ends at. A frame without a class has no
`super` to read. -/
def superAttr (frame : MethodFrame κ) : Except SuperError (Attr κ × YogClass κ) :=
  match frame.klass with
  | none => .error .undefinedClass
  | some klass =>
    match klass.super.bind (·.getAttrAndDefiningClass frame.name) with
    | none => .error .notFound
    | some found => .ok found

/-- `load_super` -/
def loadSuper (frame : MethodFrame κ) : Except SuperError (Bound κ) := do
  let (attr, _) ← superAttr frame
  let c := frame.self.klass
  return getDescr attr frame.self c

/-- How a method is looked up: by script code or from C. -/
inductive Lookup where
  | script
  | c
  deriving DecidableEq

def Lookup.getAttr : Lookup → YogObj κ → ID → Option (Bound κ)
  | script => execGetAttr
  | c => getAttrDefault

/-- The frame of the definition that a call runs after `n` calls of `super`, each made in the body
of the definition before, with the node the running definition was found in. -/
def running (lookup : Lookup) (obj : YogObj κ) (name : ID) :
    Nat → Option (MethodFrame κ × YogClass κ)
  | 0 =>
    match obj.getAttr name with
    | some _ => none
    | none => do
      let (_, definingClass) ← obj.klass.getAttrAndDefiningClass name
      let m ← (← lookup.getAttr obj name).method?
      return (m.frame, definingClass)
  | n + 1 => do
    let (frame, _) ← running lookup obj name n
    let (_, definingClass) ← (superAttr frame).toOption
    let m ← (← (loadSuper frame).toOption).method?
    return (m.frame, definingClass)

/-- The frame of a block made in a frame: nothing sets its `klass`. -/
def MethodFrame.block (frame : MethodFrame κ) : MethodFrame κ := { frame with klass := none }

end Yog
