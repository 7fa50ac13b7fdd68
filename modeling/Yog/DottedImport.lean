import Yog.Assemble
import Mathlib.Logic.Function.Basic

/-!
# Dotted imports

`YogVM_import_package` of `vm.c` and what it calls, for one thread; the locks are those of
`Packages`. The name of a package is cut at its dots, and each of its heads is searched for in the
table of packages and then in the directories of the search path, as a script or as a shared
library.

The code of packages is a parameter. It is any code that leaves the packages that it finds as they
are: `Code.keeps` and `Initializer.keeps`.
-/

namespace Yog

namespace DottedImport

abbrev Name := List Char

/-- An object of `YogPackage`. -/
abbrev Obj := ℕ

/-- What the table of packages has for a name. -/
inductive Entry
  /-- An object of `ImportingPackage`. -/
  | importing
  | package (pkg : Obj)
  deriving DecidableEq

/-- The part of the heap that an import reads. -/
structure World where
  /-- `vm->pkgs` -/
  pkgs : Name → Option Entry
  /-- The attributes of packages that hold packages. -/
  attrs : Obj → Name → Option Obj
  /-- The next object to be allocated. -/
  next : Obj

/-- Why an import does not end with a package. -/
inductive Halt
  /-- An exception. -/
  | raised
  /-- It waits for the condition of a placeholder. -/
  | waits
  /-- The code of a package does not return. -/
  | diverged
  /-- `YOG_BUG` -/
  | bug
  deriving DecidableEq

/-- The name of the package `c` in the package `base`. -/
def sub : Option Name → Name → Name
  | none, c => c
  | some base, c => base ++ '.' :: c

namespace World

/-- No two names have the same package. -/
structure Sound (w : World) : Prop where
  lt : ∀ n p, w.pkgs n = some (.package p) → p < w.next
  inj : ∀ n m p, w.pkgs n = some (.package p) → w.pkgs m = some (.package p) → n = m

/-- What is imported stays, and so does that it is an attribute of its parent. -/
structure Later (w w' : World) : Prop where
  pkgs : ∀ n p, w.pkgs n = some (.package p) → w'.pkgs n = some (.package p)
  known : ∀ n, w.pkgs n ≠ none → w'.pkgs n ≠ none
  attrs : ∀ n c p q, w.pkgs n = some (.package p) → w.pkgs (sub (some n) c) = some (.package q) →
    w.attrs p c = some q → w'.attrs p c = some q

end World

/-- How the code of a package ends: with the heap, or not at all. -/
inductive Ran (α : Type)
  | returned (a : α) (w : World)
  | raised (w : World)
  | diverged

/-- How a run of code leaves the heap. -/
def Ran.Leaves {α : Type} (w : World) (P : α → World → Prop) : Ran α → Prop
  | returned a w' => w'.Sound ∧ w.Later w' ∧ P a w'
  | raised w' => w'.Sound ∧ w.Later w'
  | diverged => True

/-- The body of a script. -/
structure Code where
  run : World → Ran Unit
  keeps : ∀ w, w.Sound → (run w).Leaves w fun _ _ => True

/-- The function of a shared library that makes its package, which is new. What is being imported is
not imported by it. -/
structure Initializer where
  run : World → Ran Obj
  keeps : ∀ w, w.Sound → (run w).Leaves w fun p w' =>
    p < w'.next ∧ (∀ n, w'.pkgs n ≠ some (.package p)) ∧
      ∀ n, w.pkgs n = some .importing → w'.pkgs n = some .importing

/-- What `dlsym` finds in a shared library. -/
abbrev Library := Name → Option Initializer

structure Env where
  /-- `vm->search_path` -/
  searchPath : List Name
  /-- The files that can be opened; without code, one that does not compile. -/
  yog : Name → Option (Option Code)
  /-- The files that `dlopen` loads. -/
  so : Name → Option Library
  /-- The attribute of a package that its class gives it. -/
  ofClass : Obj → Name → Option Obj

/-- The VM, with the symbols that were looked up for packages. -/
structure Vm where
  world : World
  dlsyms : List (Name × Name) := []

namespace Vm

/-- `YogVM_register_package` -/
def registerPackage (vm : Vm) (name : Name) (e : Entry) : Vm :=
  { vm with world := { vm.world with pkgs := Function.update vm.world.pkgs name (some e) } }

/-- `YogObj_set_attr_id` of a package. -/
def setAttr (vm : Vm) (obj : Obj) (name : Name) (val : Obj) : Vm :=
  { vm with world := { vm.world with
      attrs := Function.update vm.world.attrs obj
        (Function.update (vm.world.attrs obj) name (some val)) } }

/-- `YogPackage_new` -/
def newPackage (vm : Vm) : Vm := { vm with world := { vm.world with next := vm.world.next + 1 } }

end Vm

/-- `YogString_find_char` -/
def findChar (self : Name) (start : ℕ) (c : Char) : Option ℕ :=
  ((self.drop start).findIdx? (· = c)).map (start + ·)

/-- `YogString_strrchr` -/
def strrchr (self : Name) (c : Char) : Option ℕ :=
  (self.reverse.findIdx? (· = c)).map (self.length - 1 - ·)

/-- `YogString_slice` -/
def slice (self : Name) (pos size : ℕ) : Name := (self.drop pos).take size

/-- `package_name2path_head` -/
def packageName2pathHead (name : Name) : Name := name.map fun c => if c = '.' then '/' else c

/-- What the name of an initialiser begins with. -/
def yogInit : Name := "YogInit_".toList

/-- `make_initializer_name` -/
def makeInitializerName (pkgName : Name) : Name :=
  yogInit ++
    match strrchr pkgName '.' with
    | none => pkgName
    | some pos => slice pkgName pos (pkgName.length - pos)

/-- `make_package_path` -/
def makePackagePath (dir name : Name) (ext : String) : Name := dir ++ '/' :: name ++ ext.toList

/-- `YogEval_eval_file`: the package is registered before the body runs. -/
def evalFile (code : Option Code) (pkgName : Name) (vm : Vm) : Except Halt Obj × Vm :=
  match code with
  | none => (.error .raised, vm)
  | some code =>
    let pkg := vm.world.next
    let vm := vm.newPackage.registerPackage pkgName (.package pkg)
    match code.run vm.world with
    | .returned _ w => (.ok pkg, { vm with world := w })
    | .raised w => (.error .raised, { vm with world := w })
    | .diverged => (.error .diverged, vm)

/-- `call_initializer` -/
def callInitializer (lib : Library) (pkgName : Name) (vm : Vm) : Except Halt Obj × Vm :=
  let initName := makeInitializerName pkgName
  let vm := { vm with dlsyms := vm.dlsyms ++ [(pkgName, initName)] }
  match lib initName with
  | none => (.error .raised, vm)
  | some init =>
    match init.run vm.world with
    | .returned pkg w => (.ok pkg, { vm with world := w })
    | .raised w => (.error .raised, { vm with world := w })
    | .diverged => (.error .diverged, vm)

variable (env : Env)

/-- The loop of `import` over the directories of the search path. -/
def importFrom (pathHead pkgName : Name) : List Name → Vm → Except Halt Obj × Vm
  | [], vm => (.error .raised, vm)
  | dir :: dirs, vm =>
    match env.yog (makePackagePath dir pathHead ".yog") with
    | some code => evalFile code pkgName vm
    | none =>
      match env.so (makePackagePath dir pathHead ".so") with
      | some lib => callInitializer lib pkgName vm
      | none => importFrom pathHead pkgName dirs vm

/-- `import_package`. An exception is a long jump over the end, so it leaves the placeholder. -/
def importPackage (name : Name) (vm : Vm) : Except Halt Obj × Vm :=
  match vm.world.pkgs name with
  | some (.package pkg) => (.ok pkg, vm)
  | some .importing => (.error .waits, vm)
  | none =>
    match importFrom env (packageName2pathHead name) name env.searchPath
        (vm.registerPackage name .importing) with
    | (.ok pkg, vm) =>
      if (vm.world.pkgs name).isSome then (.ok pkg, vm.registerPackage name (.package pkg))
      else (.error .bug, vm)
    | (.error e, vm) => (.error e, vm)

/-- `set_package_as_parent_attr` -/
def setPackageAsParentAttr (parent : Option Obj) (name : Name) (start : ℕ) (stop : Option ℕ)
    (pkg : Obj) (vm : Vm) : Vm :=
  match parent with
  | none => vm
  | some parent => vm.setAttr parent (slice name start (stop.getD name.length - start)) pkg

theorem lt_of_findChar {self : Name} {n pos : ℕ} {c : Char} (h : findChar self n c = some pos) :
    n ≤ pos ∧ pos < self.length := by
  unfold findChar at h
  rw [Option.map_eq_some_iff] at h
  obtain ⟨i, hi, rfl⟩ := h
  obtain ⟨hlt, -⟩ := List.findIdx?_eq_some_iff_getElem.1 hi
  simp only [List.length_drop] at hlt
  omega

/-- The loop of `YogVM_import_package`, which has cut the name up to `n`. -/
def importRest (name : Name) (parent top : Option Obj) (n : ℕ) (vm : Vm) : Except Halt Obj × Vm :=
  let pos := findChar name n '.'
  let s := match pos with
    | none => name
    | some pos => slice name 0 pos
  match importPackage env s vm with
  | (.error e, vm) => (.error e, vm)
  | (.ok pkg, vm) =>
    let vm := setPackageAsParentAttr parent name n pos pkg vm
    let top := top.getD pkg
    match _h : pos with
    | none => (.ok top, vm)
    | some pos => importRest name (some pkg) (some top) (pos + 1) vm
termination_by name.length - n
decreasing_by
  have := lt_of_findChar _h
  omega

/-- `YogVM_import_package` -/
def vmImportPackage (name : Name) (vm : Vm) : Except Halt Obj × Vm :=
  importRest env name none none 0 vm

/-- `exec_get_attr` of a package. -/
def execGetAttr (w : World) (self : Obj) (name : Name) : Option Obj :=
  (w.attrs self name).or (env.ofClass self name)

/-- What an import has on the operand stack. -/
inductive Val
  | name (s : Name)
  /-- The function `import_package` of the builtins. -/
  | importPackage
  | pkg (p : Obj)

/-- The instructions of an import, where the only constant is the name. -/
def exec (id2name : ID → String) (const : Name) :
    List Inst → List Val → Vm → Except Halt (List Val) × Vm
  | [], stack, vm => (.ok stack, vm)
  | .op _ (.pushConst _) :: insts, stack, vm => exec id2name const insts (.name const :: stack) vm
  | .op _ (.loadGlobal _) :: insts, stack, vm =>
    exec id2name const insts (.importPackage :: stack) vm
  | .op _ (.callFunction ..) :: insts, .importPackage :: .name s :: stack, vm =>
    match vmImportPackage env s vm with
    | (.ok pkg, vm) => exec id2name const insts (.pkg pkg :: stack) vm
    | (.error e, vm) => (.error e, vm)
  | .op _ (.loadAttr name) :: insts, .pkg p :: stack, vm =>
    match execGetAttr env vm.world p (id2name name).toList with
    | some q => exec id2name const insts (.pkg q :: stack) vm
    | none => (.error .raised, vm)
  | _, _, vm => (.error .bug, vm)

end DottedImport

end Yog
