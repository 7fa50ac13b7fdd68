import Yog.DottedImport
import Yog.Compile
import Yog.Proofs.ChainedAssignments

/-!
# A dotted import imports its packages in order

The loop over the dots is a loop over the components of the name. Each of them is imported behind
those before it, and is an attribute of the one before it from then on (`Settled`).

The name of the function that makes the package of a shared library is cut at the last dot, which
stays in it: a library is loaded by the name of its function only where its own name has no dot.
-/

namespace Yog

namespace DottedImport

/-- The name of `c` and the components behind it. -/
def dotted (c : Name) (cs : List Name) : Name := cs.foldl (fun b d => sub (some b) d) c

/-- Where the last component of a name begins. -/
def start : Option Name → ℕ
  | none => 0
  | some base => base.length + 1

/-- The name up to its last component. -/
def stem : Option Name → Name
  | none => []
  | some base => base ++ ['.']

@[simp]
theorem length_stem (base : Option Name) : (stem base).length = start base := by
  cases base <;> simp [stem, start]

theorem sub_eq (base : Option Name) (c : Name) : sub base c = stem base ++ c := by
  cases base <;> simp [stem, sub]

theorem dotted_eq (c : Name) (cs : List Name) : dotted c cs = c ++ cs.flatMap ('.' :: ·) := by
  induction cs generalizing c with
  | nil => simp [dotted]
  | cons d ds ih =>
    calc dotted c (d :: ds) = dotted (sub (some c) d) ds := rfl
      _ = sub (some c) d ++ ds.flatMap ('.' :: ·) := ih _
      _ = c ++ (d :: ds).flatMap ('.' :: ·) := by
        rw [List.flatMap_cons, sub, List.append_assoc, List.cons_append]

theorem ne_dot {c : Name} (hc : '.' ∉ c) : ∀ x ∈ c, ¬x = '.' := by
  rintro x hx rfl
  exact hc hx

theorem findIdx?_dot {c : Name} (hc : '.' ∉ c) (rest : Name) :
    (c ++ '.' :: rest).findIdx? (· = '.') = some c.length := by
  rw [List.findIdx?_append, List.findIdx?_eq_none_iff.2 (by simpa using ne_dot hc)]
  simp [List.findIdx?_cons]

theorem findChar_last {base : Option Name} {c : Name} (hc : '.' ∉ c) :
    findChar (sub base c) (start base) '.' = none := by
  rw [findChar, sub_eq, ← length_stem, List.drop_left]
  simpa using ne_dot hc

theorem findChar_dot {base : Option Name} {c : Name} (hc : '.' ∉ c) (rest : Name) :
    findChar (sub base c ++ '.' :: rest) (start base) '.' = some (sub base c).length := by
  rw [findChar, sub_eq, List.append_assoc, ← length_stem, List.drop_left, findIdx?_dot hc]
  simp

@[simp]
theorem slice_whole (s rest : Name) : slice (s ++ rest) 0 s.length = s := by
  simp [slice]

theorem slice_component (base : Option Name) (c rest : Name) :
    slice (sub base c ++ rest) (start base) ((sub base c).length - start base) = c := by
  rw [slice, sub_eq, List.append_assoc, ← length_stem, List.drop_left]
  simp

theorem strrchr_none {c : Name} (hc : '.' ∉ c) : strrchr c '.' = none := by
  simpa [strrchr] using ne_dot hc

theorem strrchr_sub {base c : Name} (hc : '.' ∉ c) :
    strrchr (sub (some base) c) '.' = some base.length := by
  have h : (sub (some base) c).reverse = c.reverse ++ '.' :: base.reverse := by simp [sub]
  rw [strrchr, h, findIdx?_dot (by simpa using hc)]
  simp [sub]

theorem makeInitializerName_last {c : Name} (hc : '.' ∉ c) :
    makeInitializerName (sub none c) = yogInit ++ c := by
  simp [makeInitializerName, sub, strrchr_none hc]

/-- The dot stays. -/
theorem makeInitializerName_dot (base : Name) {c : Name} (hc : '.' ∉ c) :
    makeInitializerName (sub (some base) c) = yogInit ++ '.' :: c := by
  rw [makeInitializerName, strrchr_sub hc]
  simp [sub, slice]

variable (env : Env)

/-- The package is made an attribute of the one before. -/
def link (up : Option (Name × Obj)) (c : Name) (pkg : Obj) (vm : Vm) : Vm :=
  match up with
  | none => vm
  | some (_, parent) => vm.setAttr parent c pkg

/-- The loop of `YogVM_import_package` over the components of a name, behind the package `up`. -/
def importEach (up : Option (Name × Obj)) (top : Option Obj) (c : Name) (cs : List Name) (vm : Vm) :
    Except Halt Obj × Vm :=
  match importPackage env (sub (up.map Prod.fst) c) vm with
  | (.error e, vm) => (.error e, vm)
  | (.ok pkg, vm) =>
    let vm := link up c pkg vm
    let top := top.getD pkg
    match cs with
    | [] => (.ok top, vm)
    | d :: ds => importEach (some (sub (up.map Prod.fst) c, pkg)) (some top) d ds vm

variable {env}

theorem setPackageAsParentAttr_eq (up : Option (Name × Obj)) (c rest : Name) (pkg : Obj) (vm : Vm)
    (stop : Option ℕ)
    (hstop : stop.getD (sub (up.map Prod.fst) c ++ rest).length =
      (sub (up.map Prod.fst) c).length) :
    setPackageAsParentAttr (up.map Prod.snd) (sub (up.map Prod.fst) c ++ rest)
      (start (up.map Prod.fst)) stop pkg vm = link up c pkg vm := by
  unfold setPackageAsParentAttr
  rw [hstop, slice_component]
  rcases up with _ | ⟨base, parent⟩ <;> rfl

/-- The loop over the dots is the loop over the components. -/
theorem importRest_eq {c : Name} (hc : '.' ∉ c) : ∀ {cs : List Name}, (∀ d ∈ cs, '.' ∉ d) →
    ∀ (up : Option (Name × Obj)) (top : Option Obj) (vm : Vm),
    importRest env (dotted (sub (up.map Prod.fst) c) cs) (up.map Prod.snd) top
      (start (up.map Prod.fst)) vm = importEach env up top c cs vm := by
  intro cs
  induction cs generalizing c with
  | nil =>
    intro _ up top vm
    rw [importRest.eq_def, importEach.eq_def, show dotted (sub (up.map Prod.fst) c) [] =
      sub (up.map Prod.fst) c from rfl, findChar_last hc]
    rcases hpkg : importPackage env (sub (up.map Prod.fst) c) vm with ⟨_ | pkg, vm'⟩
    · simp [hpkg]
    · have hlink := setPackageAsParentAttr_eq up c [] pkg vm' none (by simp)
      rw [List.append_nil] at hlink
      simp [hpkg, hlink]
  | cons d ds ih =>
    intro hcs up top vm
    have hname : dotted (sub (up.map Prod.fst) c) (d :: ds) =
        sub (up.map Prod.fst) c ++ '.' :: (d ++ ds.flatMap ('.' :: ·)) := by simp [dotted_eq]
    rw [importRest.eq_def, importEach.eq_def, hname, findChar_dot hc]
    simp only [slice_whole]
    rcases hpkg : importPackage env (sub (up.map Prod.fst) c) vm with ⟨_ | pkg, vm'⟩
    · rfl
    · have h := ih (hcs d (by simp)) (fun x hx => hcs x (by simp [hx]))
        (some (sub (up.map Prod.fst) c, pkg)) (some (top.getD pkg)) (link up c pkg vm')
      have hlink := setPackageAsParentAttr_eq up c ('.' :: (d ++ ds.flatMap ('.' :: ·))) pkg vm'
        (some (sub (up.map Prod.fst) c).length) rfl
      simp only [hlink, ← h]
      simp [start, dotted_eq, sub]

variable (env) in
theorem vmImportPackage_eq {c : Name} (hc : '.' ∉ c) {cs : List Name} (hcs : ∀ d ∈ cs, '.' ∉ d)
    (vm : Vm) : vmImportPackage env (dotted c cs) vm = importEach env none none c cs vm :=
  importRest_eq hc hcs none none vm

namespace World

variable {w w' w'' : World}

theorem Later.refl (w : World) : w.Later w := ⟨fun _ _ h => h, fun _ h => h, fun _ _ _ _ _ _ h => h⟩

theorem Later.trans (h : w.Later w') (h' : w'.Later w'') : w.Later w'' where
  pkgs n p hn := h'.pkgs n p (h.pkgs n p hn)
  known n hn := h'.known n (h.known n hn)
  attrs n c p q hn hq ha :=
    h'.attrs n c p q (h.pkgs n p hn) (h.pkgs _ q hq) (h.attrs n c p q hn hq ha)

/-- A name that had no package gets an entry. -/
theorem Later.register (w : World) (name : Name) (e : Entry) (next : Obj)
    (h : ∀ p, w.pkgs name ≠ some (.package p)) :
    w.Later { w with pkgs := Function.update w.pkgs name (some e), next } where
  pkgs n p hn := by
    have hne : n ≠ name := by
      rintro rfl
      exact h p hn
    simpa [Function.update_of_ne hne] using hn
  known n hn := by
    by_cases hne : n = name
    · simp [hne]
    · simpa [Function.update_of_ne hne] using hn
  attrs _ _ _ _ _ _ ha := ha

theorem Sound.register_importing (h : w.Sound) (name : Name) :
    Sound { w with pkgs := Function.update w.pkgs name (some .importing) } := by
  have hold : ∀ n p, Function.update w.pkgs name (some .importing) n = some (.package p) →
      w.pkgs n = some (.package p) := by
    intro n p hn
    rw [Function.update_apply] at hn
    split_ifs at hn
    · simp at hn
    · exact hn
  exact ⟨fun n p hn => h.lt n p (hold n p hn), fun n m p hn hm =>
    h.inj n m p (hold n p hn) (hold m p hm)⟩

/-- A package that no name has is registered. -/
theorem Sound.register (h : w.Sound) (name : Name) {p next : Obj} (hp : p < next)
    (hnext : w.next ≤ next) (hnew : ∀ n, w.pkgs n ≠ some (.package p)) :
    Sound { w with pkgs := Function.update w.pkgs name (some (.package p)), next } := by
  have hold : ∀ n q, Function.update w.pkgs name (some (.package p)) n = some (.package q) →
      n = name ∧ q = p ∨ w.pkgs n = some (.package q) := by
    intro n q hn
    rw [Function.update_apply] at hn
    split_ifs at hn with hname
    · simp only [Option.some.injEq, Entry.package.injEq] at hn
      exact .inl ⟨hname, hn.symm⟩
    · exact .inr hn
  constructor
  · intro n q hn
    rcases hold n q hn with ⟨-, rfl⟩ | hn
    · exact hp
    · exact lt_of_lt_of_le (h.lt n q hn) hnext
  · intro n m q hn hm
    rcases hold n q hn with ⟨hname, rfl⟩ | hn' <;> rcases hold m q hm with ⟨hname', hq⟩ | hm'
    · exact hname.trans hname'.symm
    · exact absurd hm' (hnew m)
    · exact absurd (hq ▸ hn') (hnew n)
    · exact h.inj n m q hn' hm'

end World

/-- The shared library that is found before a script. -/
def library (env : Env) (pathHead : Name) : List Name → Option Library
  | [] => none
  | dir :: dirs =>
    if (env.yog (makePackagePath dir pathHead ".yog")).isSome then none
    else (env.so (makePackagePath dir pathHead ".so")).or (library env pathHead dirs)

/-- The package is not imported, and a shared library is found for it. -/
def FindsLibrary (env : Env) (name : Name) (w : World) : Prop :=
  w.pkgs name = none ∧ (library env (packageName2pathHead name) env.searchPath).isSome

instance (name : Name) (w : World) : Decidable (FindsLibrary env name w) :=
  inferInstanceAs (Decidable (_ ∧ _))

/-- The code of a package was run, if it was found. -/
structure Ended (name : Name) (w : World) (r : Except Halt Obj × Vm) : Prop where
  sound : r.2.world.Sound
  later : w.Later r.2.world
  halt : ∀ e, r.1 = .error e → e = .raised ∨ e = .diverged
  pkg : ∀ p, r.1 = .ok p → r.2.world.pkgs name = some (.package p) ∨
    p < r.2.world.next ∧ (∀ n, r.2.world.pkgs n ≠ some (.package p)) ∧
      r.2.world.pkgs name = some .importing

theorem ended_raised {name : Name} {vm : Vm} (h : vm.world.Sound) :
    Ended name vm.world (.error .raised, vm) :=
  ⟨h, .refl _, by simp, by simp⟩

theorem ended_evalFile (code : Option Code) {name : Name} {vm : Vm} (h : vm.world.Sound)
    (hname : vm.world.pkgs name = some .importing) :
    Ended name vm.world (evalFile code name vm) := by
  rcases code with _ | code
  · exact ended_raised h
  have hsound := h.register name (Nat.lt_succ_self vm.world.next) (Nat.le_succ _)
    (fun n hn => (h.lt n _ hn).false)
  have hlater := World.Later.register vm.world name (.package vm.world.next)
    (vm.world.next + 1) (by simp [hname])
  have hrun := code.keeps _ hsound
  unfold evalFile
  simp only [Vm.newPackage, Vm.registerPackage]
  rcases hr : code.run _ with ⟨u, w⟩ | w | _
  · rw [hr] at hrun
    obtain ⟨hs, hl, -⟩ := hrun
    refine ⟨hs, hlater.trans hl, by simp, ?_⟩
    rintro p ⟨⟩
    exact .inl (hl.pkgs name _ (by simp))
  · rw [hr] at hrun
    exact ⟨hrun.1, hlater.trans hrun.2, by simp, by simp⟩
  · exact ⟨hsound, hlater, by simp, by simp⟩

theorem ended_callInitializer (lib : Library) {name : Name} {vm : Vm} (h : vm.world.Sound)
    (hname : vm.world.pkgs name = some .importing) :
    Ended name vm.world (callInitializer lib name vm) := by
  unfold callInitializer
  simp only
  rcases lib (makeInitializerName name) with _ | init
  · exact ⟨h, .refl _, by simp, by simp⟩
  have hrun := init.keeps _ h
  simp only
  rcases hr : init.run _ with ⟨p, w⟩ | w | _
  · rw [hr] at hrun
    obtain ⟨hs, hl, hlt, hnew, hstay⟩ := hrun
    refine ⟨hs, hl, by simp, ?_⟩
    rintro q ⟨⟩
    exact .inr ⟨hlt, hnew, hstay name hname⟩
  · rw [hr] at hrun
    exact ⟨hrun.1, hrun.2, by simp, by simp⟩
  · exact ⟨h, .refl _, by simp, by simp⟩

theorem ended_importFrom (head : Name) {name : Name} {vm : Vm} (h : vm.world.Sound)
    (hname : vm.world.pkgs name = some .importing) :
    ∀ dirs, Ended name vm.world (importFrom env head name dirs vm)
  | [] => ended_raised h
  | dir :: dirs => by
    rw [importFrom]
    split
    · exact ended_evalFile _ h hname
    · split
      · exact ended_callInitializer _ h hname
      · exact ended_importFrom head h hname dirs

/-- What an import of a package did. -/
structure Loaded (name : Name) (w : World) (r : Except Halt Obj × Vm) : Prop where
  sound : r.2.world.Sound
  later : w.Later r.2.world
  pkg : ∀ p, r.1 = .ok p → r.2.world.pkgs name = some (.package p)
  halt : ∀ e, r.1 = .error e → e = .raised ∨ e = .diverged ∨
    e = .waits ∧ w.pkgs name = some .importing

theorem loaded_importPackage (name : Name) {vm : Vm} (h : vm.world.Sound) :
    Loaded name vm.world (importPackage env name vm) := by
  unfold importPackage
  rcases hname : vm.world.pkgs name with _ | _ | p
  · have hlater := World.Later.register vm.world name .importing vm.world.next
      (by simp [hname])
    have himp : (vm.registerPackage name .importing).world.pkgs name = some .importing := by
      simp [Vm.registerPackage]
    have hend : Ended _ _ (importFrom env _ _ _ _) := ended_importFrom (packageName2pathHead name)
      (h.register_importing name) himp env.searchPath
    rcases hr : importFrom env (packageName2pathHead name) name env.searchPath
      (vm.registerPackage name .importing) with ⟨e | p, vm'⟩
    · simp only [hr] at hend ⊢
      refine ⟨hend.sound, hlater.trans hend.later, by simp, ?_⟩
      rintro e' ⟨⟩
      rcases hend.halt e rfl with rfl | rfl <;> simp
    · simp only [hr] at hend ⊢
      have hlater' := hlater.trans hend.later
      rcases hend.pkg p rfl with hp | ⟨hlt, hnew, himporting⟩
      · have hself : vm'.registerPackage name (.package p) = vm' := by
          simp [Vm.registerPackage, ← hp]
        rw [hp, if_pos Option.isSome_some, hself]
        exact ⟨hend.sound, hlater', by rintro q ⟨⟩; exact hp, by simp⟩
      · simp only at hlt hnew himporting
        rw [himporting, if_pos Option.isSome_some]
        refine ⟨hend.sound.register name hlt le_rfl hnew,
          hlater'.trans (.register _ _ _ _ (by simp [himporting])), ?_, by simp⟩
        rintro q ⟨⟩
        simp [Vm.registerPackage]
  · exact ⟨h, .refl _, by simp, by simpa using hname⟩
  · exact ⟨h, .refl _, by rintro q ⟨⟩; exact hname, by simp⟩

theorem dlsyms_evalFile (code : Option Code) (name : Name) (vm : Vm) :
    (evalFile code name vm).2.dlsyms = vm.dlsyms := by
  unfold evalFile
  split
  · rfl
  · simp only
    split <;> rfl

theorem dlsyms_callInitializer (lib : Library) (name : Name) (vm : Vm) :
    (callInitializer lib name vm).2.dlsyms = vm.dlsyms ++ [(name, makeInitializerName name)] := by
  unfold callInitializer
  simp only
  split
  · rfl
  · split <;> rfl

theorem dlsyms_importFrom (env : Env) (head name : Name) (vm : Vm) : ∀ dirs,
    (importFrom env head name dirs vm).2.dlsyms = vm.dlsyms ++
      if (library env head dirs).isSome then [(name, makeInitializerName name)] else []
  | [] => by simp [importFrom, library]
  | dir :: dirs => by
    rw [importFrom, library]
    rcases env.yog (makePackagePath dir head ".yog") with _ | code
    · rcases env.so (makePackagePath dir head ".so") with _ | lib
      · simpa using dlsyms_importFrom env head name vm dirs
      · simp [dlsyms_callInitializer]
    · simp [dlsyms_evalFile]

/-- The symbols that an import of a package looks up. -/
theorem dlsyms_importPackage (name : Name) (vm : Vm) :
    (importPackage env name vm).2.dlsyms = vm.dlsyms ++
      if FindsLibrary env name vm.world then [(name, makeInitializerName name)] else [] := by
  have hfinds := FindsLibrary.eq_1 env name vm.world
  unfold importPackage
  rcases hname : vm.world.pkgs name with _ | _ | p
  · have hfrom := dlsyms_importFrom env (packageName2pathHead name) name
      (vm.registerPackage name .importing) env.searchPath
    rcases hr : importFrom env (packageName2pathHead name) name env.searchPath
      (vm.registerPackage name .importing) with ⟨e | p, vm'⟩
    · rw [hr] at hfrom
      simpa [Vm.registerPackage, hfinds, hname] using hfrom
    · rw [hr] at hfrom
      simp only
      split
      · simpa [Vm.registerPackage, hfinds, hname] using hfrom
      · simpa [Vm.registerPackage, hfinds, hname] using hfrom
  · simp [hfinds, hname]
  · simp [hfinds, hname]

section Spec

variable (env : Env)

/-- The packages of a name are imported one after another, each behind the one before. -/
inductive InOrder : Option (Name × Obj) → List Name → Vm → List Obj → Vm → Prop
  | nil {up vm} : InOrder up [] vm [] vm
  | cons {up c cs vm pkg vm₁ pkgs vm'} :
    importPackage env (sub (up.map Prod.fst) c) vm = (.ok pkg, vm₁) →
    InOrder (some (sub (up.map Prod.fst) c, pkg)) cs (link up c pkg vm₁) pkgs vm' →
    InOrder up (c :: cs) vm (pkg :: pkgs) vm'

/-- The first import that does not end with a package ends all. -/
inductive Stops : Option (Name × Obj) → List Name → Vm → Halt → Vm → Prop
  | here {up c cs vm e vm'} :
    importPackage env (sub (up.map Prod.fst) c) vm = (.error e, vm') → Stops up (c :: cs) vm e vm'
  | later {up c cs vm pkg vm₁ e vm'} :
    importPackage env (sub (up.map Prod.fst) c) vm = (.ok pkg, vm₁) →
    Stops (some (sub (up.map Prod.fst) c, pkg)) cs (link up c pkg vm₁) e vm' →
    Stops up (c :: cs) vm e vm'

/-- Each package is registered, and is an attribute of the one before. -/
def Settled (w : World) : Option (Name × Obj) → List Name → List Obj → Prop
  | _, [], [] => True
  | up, c :: cs, pkg :: pkgs =>
    w.pkgs (sub (up.map Prod.fst) c) = some (.package pkg) ∧
      (∀ parent ∈ up.map Prod.snd, w.attrs parent c = some pkg) ∧
        Settled w (some (sub (up.map Prod.fst) c, pkg)) cs pkgs
  | _, _, _ => False

/-- Every package is imported, or can be, and a library is found for one without a dot only. -/
def Plain : Option (Name × Obj) → List Name → Vm → Prop
  | _, [], _ => True
  | up, c :: cs, vm =>
    vm.world.pkgs (sub (up.map Prod.fst) c) ≠ some .importing ∧
      (up ≠ none → ¬FindsLibrary env (sub (up.map Prod.fst) c) vm.world) ∧
        ∀ pkg vm₁, importPackage env (sub (up.map Prod.fst) c) vm = (.ok pkg, vm₁) →
          Plain (some (sub (up.map Prod.fst) c, pkg)) cs (link up c pkg vm₁)

end Spec

theorem inOrder_cons_iff {up : Option (Name × Obj)} {c : Name} {cs : List Name} {vm vm' : Vm}
    {pkgs : List Obj} : InOrder env up (c :: cs) vm pkgs vm' ↔ ∃ pkg vm₁ pkgs',
      importPackage env (sub (up.map Prod.fst) c) vm = (.ok pkg, vm₁) ∧
      InOrder env (some (sub (up.map Prod.fst) c, pkg)) cs (link up c pkg vm₁) pkgs' vm' ∧
      pkgs = pkg :: pkgs' := by
  constructor
  · rintro (_ | ⟨h, h'⟩)
    exact ⟨_, _, _, h, h', rfl⟩
  · rintro ⟨pkg, vm₁, pkgs', h, h', rfl⟩
    exact .cons h h'

theorem stops_cons_iff {up : Option (Name × Obj)} {c : Name} {cs : List Name} {vm vm' : Vm}
    {e : Halt} : Stops env up (c :: cs) vm e vm' ↔
      importPackage env (sub (up.map Prod.fst) c) vm = (.error e, vm') ∨ ∃ pkg vm₁,
      importPackage env (sub (up.map Prod.fst) c) vm = (.ok pkg, vm₁) ∧
      Stops env (some (sub (up.map Prod.fst) c, pkg)) cs (link up c pkg vm₁) e vm' := by
  constructor
  · rintro (h | ⟨h, h'⟩)
    · exact .inl h
    · exact .inr ⟨_, _, h, h'⟩
  · rintro (h | ⟨pkg, vm₁, h, h'⟩)
    · exact .here h
    · exact .later h h'

theorem inOrder_nil_iff {up : Option (Name × Obj)} {vm vm' : Vm} {pkgs : List Obj} :
    InOrder env up [] vm pkgs vm' ↔ pkgs = [] ∧ vm' = vm := by
  constructor
  · rintro ⟨⟩
    exact ⟨rfl, rfl⟩
  · rintro ⟨rfl, rfl⟩
    exact .nil

theorem not_stops_nil {up : Option (Name × Obj)} {vm vm' : Vm} {e : Halt} :
    ¬Stops env up [] vm e vm' := by
  rintro ⟨⟩

theorem importEach_eq_ok_iff {c : Name} {cs : List Name} {up : Option (Name × Obj)}
    {top : Option Obj} {vm vm' : Vm} {p : Obj} :
    importEach env up top c cs vm = (.ok p, vm') ↔
      ∃ pkg pkgs, InOrder env up (c :: cs) vm (pkg :: pkgs) vm' ∧ p = top.getD pkg := by
  induction cs generalizing c up top vm with
  | nil =>
    rw [importEach.eq_def]
    rcases hpkg : importPackage env (sub (up.map Prod.fst) c) vm with ⟨e | pkg, vm₁⟩
    · simp [inOrder_cons_iff, hpkg]
    · simp [inOrder_cons_iff, inOrder_nil_iff, hpkg, and_comm, eq_comm]
  | cons d ds ih =>
    rw [importEach.eq_def]
    rcases hpkg : importPackage env (sub (up.map Prod.fst) c) vm with ⟨e | pkg, vm₁⟩
    · simp [inOrder_cons_iff (c := c), hpkg]
    · rw [ih]
      constructor
      · rintro ⟨pkg', pkgs, h, rfl⟩
        exact ⟨pkg, pkg' :: pkgs, .cons hpkg h, rfl⟩
      · rintro ⟨pkg', pkgs, h, rfl⟩
        obtain ⟨_, _, _, h, h', heq⟩ := inOrder_cons_iff.1 h
        simp only [hpkg, Prod.mk.injEq, Except.ok.injEq] at h
        obtain ⟨rfl, rfl⟩ := h
        obtain ⟨rfl, rfl⟩ := List.cons_eq_cons.1 heq
        obtain ⟨_, _, pkgs', h₁, h₂, rfl⟩ := inOrder_cons_iff.1 h'
        exact ⟨_, pkgs', .cons h₁ h₂, rfl⟩

theorem importEach_eq_error_iff {c : Name} {cs : List Name} {up : Option (Name × Obj)}
    {top : Option Obj} {vm vm' : Vm} {e : Halt} :
    importEach env up top c cs vm = (.error e, vm') ↔ Stops env up (c :: cs) vm e vm' := by
  induction cs generalizing c up top vm with
  | nil =>
    rw [importEach.eq_def, stops_cons_iff]
    rcases hpkg : importPackage env (sub (up.map Prod.fst) c) vm with ⟨e | pkg, vm₁⟩
    · simp
    · simp [not_stops_nil]
  | cons d ds ih =>
    rw [importEach.eq_def, stops_cons_iff]
    rcases hpkg : importPackage env (sub (up.map Prod.fst) c) vm with ⟨e | pkg, vm₁⟩
    · simp
    · simp [ih]

/-- The package `up` is registered. -/
def Held (up : Option (Name × Obj)) (w : World) : Prop :=
  ∀ u ∈ up, w.pkgs u.1 = some (.package u.2)

theorem Held.later {up : Option (Name × Obj)} {w w' : World} (h : Held up w) (hl : w.Later w') :
    Held up w' := fun u hu => hl.pkgs _ _ (h u hu)

/-- The link of a package that has been registered changes no other. -/
theorem later_link {up : Option (Name × Obj)} {c : Name} {pkg : Obj} {vm : Vm}
    (hs : vm.world.Sound) (hup : Held up vm.world)
    (hpkg : vm.world.pkgs (sub (up.map Prod.fst) c) = some (.package pkg)) :
    vm.world.Later (link up c pkg vm).world := by
  rcases up with _ | ⟨base, parent⟩
  · exact .refl _
  · refine ⟨fun _ _ h => h, fun _ h => h, fun n d p q hn hq ha => ?_⟩
    simp only [link, Vm.setAttr, Function.update_apply]
    by_cases hp : p = parent
    · by_cases hd : d = c
      · -- A package has one name, so the attribute was this link already.
        subst hp hd
        obtain rfl := hs.inj n base p hn (hup _ rfl)
        have hsame : some (Entry.package q) = some (.package pkg) := hq.symm.trans hpkg
        simpa using hsame.symm
      · subst hp
        simpa [hd] using ha
    · simpa [hp] using ha

theorem sound_link {up : Option (Name × Obj)} {c : Name} {pkg : Obj} {vm : Vm}
    (hs : vm.world.Sound) : (link up c pkg vm).world.Sound := by
  rcases up with _ | ⟨base, parent⟩
  · exact hs
  · exact ⟨hs.lt, hs.inj⟩

theorem attrs_link (base c : Name) (parent pkg : Obj) (vm : Vm) :
    (link (some (base, parent)) c pkg vm).world.attrs parent c = some pkg := by
  simp [link, Vm.setAttr]

/-- The packages and the links of an import are there at its end. -/
theorem InOrder.settled {up : Option (Name × Obj)} {cs : List Name} {vm vm' : Vm} {pkgs : List Obj}
    (h : InOrder env up cs vm pkgs vm') (hs : vm.world.Sound) (hup : Held up vm.world) :
    vm'.world.Sound ∧ vm.world.Later vm'.world ∧ Settled vm'.world up cs pkgs := by
  induction h with
  | nil => exact ⟨hs, .refl _, trivial⟩
  | @cons up c cs vm pkg vm₁ pkgs vm' hpkg hrest ih =>
    have hload : Loaded _ _ (importPackage env _ vm) :=
      loaded_importPackage (sub (up.map Prod.fst) c) hs
    rw [hpkg] at hload
    have hentry := hload.pkg pkg rfl
    have hlink := later_link (c := c) hload.sound (hup.later hload.later) hentry
    obtain ⟨hs', hl, hsettled⟩ := ih (sound_link hload.sound)
      (by rintro u ⟨⟩; exact hlink.pkgs _ _ hentry)
    refine ⟨hs', (hload.later.trans hlink).trans hl, hl.pkgs _ _ (hlink.pkgs _ _ hentry), ?_,
      hsettled⟩
    intro parent hparent
    rcases up with _ | ⟨base, p⟩
    · simp at hparent
    · obtain rfl : p = parent := by simpa using hparent
      have hheld := (hup.later hload.later).later hlink
      exact hl.attrs base c p pkg (hheld _ rfl) (hlink.pkgs _ _ hentry)
        (attrs_link base c p pkg vm₁)

/-- The initialiser is named after the last component of the package. -/
def NamedAfter (r : Name × Name) : Prop :=
  ∃ base c, '.' ∉ c ∧ r = (sub base c, yogInit ++ c)

theorem namedAfter_iff (base : Option Name) {c : Name} (hc : '.' ∉ c) :
    NamedAfter (sub base c, makeInitializerName (sub base c)) ↔ base = none := by
  constructor
  · rintro ⟨base', c', hc', heq⟩
    rcases base with _ | base
    · rfl
    · rw [makeInitializerName_dot base hc, Prod.mk.injEq, List.append_cancel_left_eq] at heq
      simp [← heq.2] at hc'
  · rintro rfl
    exact ⟨none, c, hc, by rw [makeInitializerName_last hc]⟩

theorem importPackage_importing {name : Name} {vm : Vm}
    (h : vm.world.pkgs name = some .importing) :
    importPackage env name vm = (.error .waits, vm) := by
  simp [importPackage, h]

variable (env) in
/-- The name of a package without a dot is the only one that a library is to have. -/
theorem named_importPackage {c : Name} (hc : '.' ∉ c) (up : Option (Name × Obj)) (vm : Vm) :
    ∃ new, (importPackage env (sub (up.map Prod.fst) c) vm).2.dlsyms = vm.dlsyms ++ new ∧
      ((up ≠ none → ¬FindsLibrary env (sub (up.map Prod.fst) c) vm.world) ↔
        ∀ r ∈ new, NamedAfter r) := by
  refine ⟨_, dlsyms_importPackage _ vm, ?_⟩
  split_ifs with h
  · simp [h, namedAfter_iff _ hc]
  · simp [h]

/-- The end of an import whose first package is not imported. -/
theorem plain_iff_of_error {c : Name} {cs : List Name} {up : Option (Name × Obj)} {vm vm₁ : Vm}
    {e : Halt} (hs : vm.world.Sound)
    (h : importPackage env (sub (up.map Prod.fst) c) vm = (.error e, vm₁)) :
    Plain env up (c :: cs) vm ↔ (e = .raised ∨ e = .diverged) ∧
      (up ≠ none → ¬FindsLibrary env (sub (up.map Prod.fst) c) vm.world) := by
  have hload : Loaded _ _ (importPackage env _ vm) :=
      loaded_importPackage (sub (up.map Prod.fst) c) hs
  rw [h] at hload
  have hwaits : vm.world.pkgs (sub (up.map Prod.fst) c) ≠ some .importing ↔
      e = .raised ∨ e = .diverged := by
    constructor
    · intro hne
      rcases hload.halt e rfl with he | he | ⟨-, himp⟩
      · exact .inl he
      · exact .inr he
      · exact absurd himp hne
    · intro he himp
      rw [importPackage_importing himp] at h
      cases h
      simp at he
  rw [Plain, h, hwaits]
  simp

theorem plain_iff_of_ok {c : Name} {cs : List Name} {up : Option (Name × Obj)} {vm vm₁ : Vm}
    {pkg : Obj} (h : importPackage env (sub (up.map Prod.fst) c) vm = (.ok pkg, vm₁)) :
    Plain env up (c :: cs) vm ↔
      (up ≠ none → ¬FindsLibrary env (sub (up.map Prod.fst) c) vm.world) ∧
      Plain env (some (sub (up.map Prod.fst) c, pkg)) cs (link up c pkg vm₁) := by
  have hne : vm.world.pkgs (sub (up.map Prod.fst) c) ≠ some .importing := by
    intro himp
    simp [importPackage_importing himp] at h
  rw [Plain, h]
  simp [hne]

@[simp]
theorem dlsyms_link (up : Option (Name × Obj)) (c : Name) (pkg : Obj) (vm : Vm) :
    (link up c pkg vm).dlsyms = vm.dlsyms := by
  rcases up with _ | ⟨_, _⟩ <;> rfl

variable (env) in
/-- An import is a plain one if it does not wait and looks up what it should. -/
theorem plain_iff {c : Name} {cs : List Name} (hc : '.' ∉ c) (hcs : ∀ d ∈ cs, '.' ∉ d)
    (up : Option (Name × Obj)) (top : Option Obj) {vm : Vm} (hs : vm.world.Sound) :
    ∃ new, (importEach env up top c cs vm).2.dlsyms = vm.dlsyms ++ new ∧
      (Plain env up (c :: cs) vm ↔
        (∀ e, (importEach env up top c cs vm).1 = .error e → e = .raised ∨ e = .diverged) ∧
          ∀ r ∈ new, NamedAfter r) := by
  induction cs generalizing c up top vm with
  | nil =>
    obtain ⟨new, hnew, hnamed⟩ := named_importPackage env hc up vm
    rw [importEach.eq_def]
    rcases hpkg : importPackage env (sub (up.map Prod.fst) c) vm with ⟨e | pkg, vm₁⟩
    · rw [hpkg] at hnew
      exact ⟨new, hnew, by simpa [hnamed] using plain_iff_of_error hs hpkg⟩
    · rw [hpkg] at hnew
      refine ⟨new, by simpa using hnew, ?_⟩
      rw [plain_iff_of_ok hpkg, hnamed, Plain]
      simp
  | cons d ds ih =>
    obtain ⟨new, hnew, hnamed⟩ := named_importPackage env hc up vm
    have hload : Loaded _ _ (importPackage env _ vm) :=
      loaded_importPackage (sub (up.map Prod.fst) c) hs
    rw [importEach.eq_def]
    rcases hpkg : importPackage env (sub (up.map Prod.fst) c) vm with ⟨e | pkg, vm₁⟩
    · rw [hpkg] at hnew
      exact ⟨new, hnew, by simpa [hnamed] using plain_iff_of_error hs hpkg⟩
    · rw [hpkg] at hnew hload
      simp only at hnew
      have hlink : (link up c pkg vm₁).world.Sound := sound_link hload.sound
      obtain ⟨new', hnew', hiff⟩ := ih (hcs d (by simp)) (fun x hx => hcs x (by simp [hx]))
        (some (sub (up.map Prod.fst) c, pkg)) (some (top.getD pkg)) hlink
      refine ⟨new ++ new', by simp [hnew', hnew], ?_⟩
      rw [plain_iff_of_ok hpkg, hnamed, hiff]
      simp only [List.mem_append, or_imp, forall_and]
      tauto

theorem Settled.take {w : World} : ∀ {cs : List Name} {pkgs : List Obj} {up : Option (Name × Obj)}
    (k : ℕ), Settled w up cs pkgs → Settled w up (cs.take k) (pkgs.take k)
  | [], [], _, k, _ => by simp [Settled]
  | [], _ :: _, _, _, h => h.elim
  | _ :: _, [], _, _, h => h.elim
  | c :: cs, pkg :: pkgs, up, 0, _ => by simp [Settled]
  | c :: cs, pkg :: pkgs, up, k + 1, h => ⟨h.1, h.2.1, h.2.2.take k⟩

theorem link_eq_self {up : Option (Name × Obj)} {c : Name} {pkg : Obj} {vm : Vm}
    (h : ∀ parent ∈ up.map Prod.snd, vm.world.attrs parent c = some pkg) :
    link up c pkg vm = vm := by
  rcases up with _ | ⟨base, parent⟩
  · rfl
  · simp [link, Vm.setAttr, ← h parent rfl]

/-- What has been imported is found, and nothing changes. -/
theorem Settled.importEach_eq {vm : Vm} : ∀ {cs : List Name} {c : Name} {pkg : Obj}
    {pkgs : List Obj} {up : Option (Name × Obj)} (top : Option Obj),
    Settled vm.world up (c :: cs) (pkg :: pkgs) →
      importEach env up top c cs vm = (.ok (top.getD pkg), vm)
  | [], c, pkg, pkgs, up, top, ⟨hpkg, hattr, _⟩ => by
    rw [importEach.eq_def]
    simp [importPackage, hpkg, link_eq_self hattr]
  | d :: ds, c, pkg, [], up, top, ⟨_, _, h⟩ => h.elim
  | d :: ds, c, pkg, q :: pkgs, up, top, ⟨hpkg, hattr, h⟩ => by
    rw [importEach.eq_def]
    have ih := Settled.importEach_eq (some (top.getD pkg)) h
    simpa [importPackage, hpkg, link_eq_self hattr] using ih

section Code

variable (yenv : YogEnv)

/-- The component that an ID of the statement is. -/
def component (id : ID) : Name := (yenv.id2name id).toList

theorem toList_joinPackageNames (name : ID) (rest : List ID) :
    (joinPackageNames yenv name rest).toList =
      dotted (component yenv name) (rest.map (component yenv)) := by
  unfold joinPackageNames dotted component
  generalize yenv.id2name name = s
  induction rest generalizing s with
  | nil => rfl
  | cons id rest ih =>
    rw [List.foldl_cons, ih, List.map_cons, List.foldl_cons]
    simp [sub]

/-- The expression `a1.a2...an`. -/
def moduleExpr (lineno : Lineno) (name : ID) (rest : List ID) : Expr :=
  rest.foldl (fun e id => .attr lineno e id) (.variable lineno name)

/-- The instructions leave the package to the store at their end. -/
def Yields (env : Env) (const : Name) (l : List Inst) (vm : Vm) (p : Obj) (vm' : Vm) : Prop :=
  ∃ (code : List Inst) (lineno : Lineno) (op : Op Label), l = code ++ [.op lineno op] ∧ op.pops = 1 ∧
    op.pushes = 0 ∧ exec env yenv.id2name const code [] vm = (.ok [.pkg p], vm')

/-- The statement stores the package. -/
def Binds (env : Env) (name : ID) (rest : List ID) (as : Option ID) (vm : Vm) (p : Obj) (vm' : Vm) :
    Prop :=
  ∀ ctx lineno s l s', compileVisitImport yenv ctx lineno name rest as s = .ok ((), l, s') →
    Yields yenv env (joinPackageNames yenv name rest).toList l vm p vm'

/-- The expression denotes the package, where its variable has the package `top`. -/
def Denotes (env : Env) (name : ID) (rest : List ID) (vm : Vm) (top p : Obj) : Prop :=
  ∀ fuel ctx lineno s l s',
    (visitor yenv fuel).node ctx (moduleExpr lineno name rest) s = .ok ((), l, s') →
      ∃ load code, l = load ++ code ∧
        (∃ s₁, compileVisitVariable ctx lineno name s = .ok ((), load, s₁)) ∧
          exec env yenv.id2name [] code [.pkg top] vm = (.ok [.pkg p], vm)

end Code

variable {yenv : YogEnv}

/-- The instructions that take a package from the one before. -/
def loadAttrs (lineno : Lineno) (rest : List ID) : List Inst :=
  rest.map fun id => .op lineno (.loadAttr id)

theorem each_loadAttr_eq_ok {lineno : Lineno} : ∀ {rest : List ID} {s s' : CompileData} {l : List Inst},
    compileLoadPkgAttr lineno rest s = .ok ((), l, s') → l = loadAttrs lineno rest := by
  intro rest
  unfold compileLoadPkgAttr
  induction rest with
  | nil =>
    intro s s' l h
    exact (Emission.pure_eq_ok.1 h).2.1
  | cons id rest ih =>
    intro s s' l h
    obtain ⟨u, l₁, s₁, l₂, h₁, h₂, rfl⟩ := Emission.bind_eq_ok.1 h
    obtain ⟨rfl, -⟩ := Emission.emit_eq_ok.1 h₁
    rw [ih h₂]
    rfl

theorem Settled.exec_loadAttrs {lineno : Lineno} {const : Name} {vm : Vm} : ∀ {rest : List ID}
    {pkgs : List Obj} {base : Name} {p : Obj},
    Settled vm.world (some (base, p)) (rest.map (component yenv)) pkgs →
      exec env yenv.id2name const (loadAttrs lineno rest) [.pkg p] vm =
        (.ok [.pkg (pkgs.getLastD p)], vm)
  | [], [], _, _, _ => by simp [loadAttrs, exec]
  | [], _ :: _, _, _, h => h.elim
  | _ :: _, [], _, _, h => h.elim
  | id :: rest, q :: pkgs, base, p, ⟨_, hattr, h⟩ => by
    have hq : vm.world.attrs p (yenv.id2name id).toList = some q := hattr p rfl
    have ih : exec _ _ const (loadAttrs lineno rest) _ _ = _ := h.exec_loadAttrs
    rw [List.getLastD_cons]
    simpa [loadAttrs, exec, execGetAttr, hq] using ih

/-- What is emitted for an expression `a1.a2...an`. -/
theorem moduleExpr_eq_ok {ctx : Ctx} {lineno : Lineno} {name : ID} : ∀ {rest : List ID} {fuel : ℕ}
    {s s' : CompileData} {l : List Inst},
    (visitor yenv fuel).node ctx (moduleExpr lineno name rest) s = .ok ((), l, s') →
      ∃ load s₁, l = load ++ loadAttrs lineno rest ∧
        compileVisitVariable ctx lineno name s = .ok ((), load, s₁) := by
  intro rest
  induction rest using List.reverseRecOn with
  | nil =>
    intro fuel s s' l h
    rcases fuel with _ | fuel
    · exact absurd h (Emission.fail_eq_ok (s := s))
    · exact ⟨l, s', by simp [loadAttrs], h⟩
  | append_singleton rest id ih =>
    intro fuel s s' l h
    rcases fuel with _ | fuel
    · exact absurd h (Emission.fail_eq_ok (s := s))
    · have h' : compileVisitAttr (visitor yenv fuel) ctx lineno (moduleExpr lineno name rest) id s =
          .ok ((), l, s') := by
        rw [moduleExpr, List.foldl_append] at h
        exact h
      obtain ⟨u, l₁, s₁, l₂, h₁, h₂, rfl⟩ := Emission.bind_eq_ok.1 h'
      obtain ⟨rfl, -⟩ := Emission.emit_eq_ok.1 h₂
      obtain ⟨load, s₂, rfl, hload⟩ := ih h₁
      exact ⟨load, s₂, by simp [loadAttrs], hload⟩

/-- What is emitted for the statement. -/
theorem compileVisitImport_eq_ok {ctx : Ctx} {lineno : Lineno} {name : ID} {rest : List ID}
    {as : Option ID} {s s' : CompileData} {l : List Inst}
    (h : compileVisitImport yenv ctx lineno name rest as s = .ok ((), l, s')) :
    ∃ i op, op.pops = 1 ∧ op.pushes = 0 ∧ l = [.op lineno (.pushConst i),
      .op lineno (.loadGlobal (yenv.intern "import_package")),
      .op lineno (.callFunction 1 0 0 0 0 1 0 0)] ++
      (if as.isSome then loadAttrs lineno rest else []) ++ [.op lineno op] := by
  obtain ⟨u, l₁, s₁, l₂, h₁, h₂, rfl⟩ := Emission.bind_eq_ok.1 h
  obtain ⟨u, m₁, t₁, m₂, hconst, hrest, rfl⟩ := Emission.bind_eq_ok.1 h₁
  obtain ⟨i, k₁, t₂, k₂, hreg, hpush, rfl⟩ := Emission.bind_eq_ok.1 hconst
  obtain rfl : k₁ = [] := by
    unfold registerConst at hreg
    split at hreg
    · cases hreg
      rfl
    · split_ifs at hreg
      cases hreg
      rfl
  obtain ⟨rfl, -⟩ := Emission.emit_eq_ok.1 hpush
  obtain ⟨u, m₃, t₃, m₄, hglobal, hcall, rfl⟩ := Emission.bind_eq_ok.1 hrest
  obtain ⟨rfl, -⟩ := Emission.emit_eq_ok.1 hglobal
  obtain ⟨rfl, -⟩ := Emission.emit_eq_ok.1 hcall
  rcases as with _ | as
  · obtain ⟨op, rfl, -, hpops, hpushes⟩ := appendStore_eq_ok h₂
    exact ⟨i, op, hpops, hpushes, rfl⟩
  · obtain ⟨u, n₁, t₄, n₂, hload, hstore, rfl⟩ := Emission.bind_eq_ok.1 h₂
    obtain ⟨op, rfl, -, hpops, hpushes⟩ := appendStore_eq_ok hstore
    obtain rfl := each_loadAttr_eq_ok hload
    exact ⟨i, op, hpops, hpushes, rfl⟩

/-- The statement binds what the call of `import_package` gives, or the last package. -/
theorem binds_of_settled {name : ID} {rest : List ID} {as : Option ID} {vm vm' : Vm} {top : Obj}
    {pkgs : List Obj}
    (h : vmImportPackage env (joinPackageNames yenv name rest).toList vm = (.ok top, vm'))
    (hs : Settled vm'.world none ((name :: rest).map (component yenv)) (top :: pkgs)) :
    Binds yenv env name rest as vm (if as.isSome then pkgs.getLastD top else top) vm' := by
  intro ctx lineno s l s' hl
  obtain ⟨i, op, hpops, hpushes, rfl⟩ := compileVisitImport_eq_ok hl
  refine ⟨_, lineno, op, rfl, hpops, hpushes, ?_⟩
  simp only [List.cons_append, List.nil_append, exec, h]
  rcases as with _ | as
  · rfl
  · exact hs.2.2.exec_loadAttrs

/-- The expression denotes the last package. -/
theorem denotes_of_settled {name : ID} {rest : List ID} {vm : Vm} {top : Obj} {pkgs : List Obj}
    (hs : Settled vm.world none ((name :: rest).map (component yenv)) (top :: pkgs)) :
    Denotes yenv env name rest vm top (pkgs.getLastD top) := by
  intro fuel ctx lineno s l s' hl
  obtain ⟨load, s₁, rfl, hload⟩ := moduleExpr_eq_ok hl
  exact ⟨load, _, rfl, ⟨s₁, hload⟩, hs.2.2.exec_loadAttrs⟩

variable (env yenv)

/-- What the import of a name has done when it has given packages, the first of which is `top`. -/
structure Imported (name : ID) (rest : List ID) (vm : Vm) (top : Obj) (pkgs : List Obj) (vm' : Vm) :
    Prop where
  inOrder : InOrder env none ((name :: rest).map (component yenv)) vm (top :: pkgs) vm'
  settled : Settled vm'.world none ((name :: rest).map (component yenv)) (top :: pkgs)
  plain : Binds yenv env name rest none vm top vm'
  aliased : ∀ as, Binds yenv env name rest (some as) vm (pkgs.getLastD top) vm'
  expression : Denotes yenv env name rest vm' top (pkgs.getLastD top)
  plain_again : ∀ k, Binds yenv env name (rest.take k) none vm' top vm'
  aliased_again : ∀ k as, Binds yenv env name (rest.take k) (some as) vm'
    ((pkgs.take k).getLastD top) vm'

/-- An import binds the packages of all prefixes of the name, or stops at one of them with its
exception. -/
structure Imports (name : ID) (rest : List ID) (vm : Vm) : Prop where
  ok : ∀ top vm', vmImportPackage env (joinPackageNames yenv name rest).toList vm =
    (.ok top, vm') → ∃ pkgs, Imported env yenv name rest vm top pkgs vm'
  error : ∀ e vm', vmImportPackage env (joinPackageNames yenv name rest).toList vm =
    (.error e, vm') → (e = .raised ∨ e = .diverged) ∧
      Stops env none ((name :: rest).map (component yenv)) vm e vm'
  named : ∀ r, (vmImportPackage env (joinPackageNames yenv name rest).toList vm).2.dlsyms =
    vm.dlsyms ++ r → ∀ d ∈ r, NamedAfter d

variable {env yenv}

theorem Imported.of_ok {name : ID} {rest : List ID} {vm vm' : Vm} {top : Obj}
    (hdot : ∀ id ∈ name :: rest, '.' ∉ component yenv id) (hs : vm.world.Sound)
    (h : vmImportPackage env (joinPackageNames yenv name rest).toList vm = (.ok top, vm')) :
    ∃ pkgs, Imported env yenv name rest vm top pkgs vm' := by
  have hrest : ∀ d ∈ rest.map (component yenv), '.' ∉ d := by
    simpa using fun id hid => hdot id (by simp [hid])
  have hname := hdot name (by simp)
  have heach := h
  rw [toList_joinPackageNames, vmImportPackage_eq _ hname hrest, importEach_eq_ok_iff] at heach
  obtain ⟨pkg, pkgs, hin, rfl⟩ := heach
  obtain ⟨hs', -, hsettled⟩ := hin.settled hs (by simp [Held])
  have hagain : ∀ k, vmImportPackage env (joinPackageNames yenv name (rest.take k)).toList vm' =
      (.ok top, vm') := by
    intro k
    have htake := hsettled.take (k + 1)
    rw [toList_joinPackageNames, vmImportPackage_eq _ hname]
    · rw [List.map_take]
      exact htake.importEach_eq none
    · intro d hd
      rw [List.map_take] at hd
      exact hrest d (List.mem_of_mem_take hd)
  have htaken : ∀ k, Settled vm'.world none ((name :: rest.take k).map (component yenv))
      (top :: pkgs.take k) := by
    intro k
    rw [List.map_cons, List.map_take]
    exact hsettled.take (k + 1)
  exact ⟨pkgs, hin, hsettled, binds_of_settled h hsettled, fun as => binds_of_settled h hsettled,
    denotes_of_settled hsettled, fun k => binds_of_settled (hagain k) (htaken k),
    fun k as => binds_of_settled (hagain k) (htaken k)⟩

theorem plain_of_imports {name : ID} {rest : List ID} {vm : Vm}
    (hdot : ∀ id ∈ name :: rest, '.' ∉ component yenv id) (hs : vm.world.Sound)
    (h : Imports env yenv name rest vm) :
    Plain env none ((name :: rest).map (component yenv)) vm := by
  have hrest : ∀ d ∈ rest.map (component yenv), '.' ∉ d := by
    simpa using fun id hid => hdot id (by simp [hid])
  have hname := hdot name (by simp)
  obtain ⟨new, hnew, hiff⟩ := plain_iff env hname hrest none none hs
  have heq := vmImportPackage_eq env hname hrest vm
  rw [← toList_joinPackageNames] at heq
  refine hiff.2 ⟨fun e he => ?_, h.named new (by rw [heq, hnew])⟩
  exact (h.error e _ (by rw [heq, ← he])).1

/-- A dotted import does what it should exactly if no package behind the first dot is loaded from a
shared library, and no package has the placeholder of an import that has not ended. -/
theorem imports_iff {name : ID} {rest : List ID} {vm : Vm}
    (hdot : ∀ id ∈ name :: rest, '.' ∉ component yenv id) (hs : vm.world.Sound) :
    Imports env yenv name rest vm ↔ Plain env none ((name :: rest).map (component yenv)) vm := by
  refine ⟨plain_of_imports hdot hs, fun h => ?_⟩
  have hrest : ∀ d ∈ rest.map (component yenv), '.' ∉ d := by
    simpa using fun id hid => hdot id (by simp [hid])
  have hname := hdot name (by simp)
  obtain ⟨new, hnew, hiff⟩ := plain_iff env hname hrest none none hs
  obtain ⟨hhalt, hnamed⟩ := hiff.1 h
  have heq := vmImportPackage_eq env hname hrest vm
  rw [← toList_joinPackageNames] at heq
  refine ⟨fun top vm' => Imported.of_ok hdot hs, fun e vm' he => ?_, fun r hr => ?_⟩
  · rw [heq] at he
    exact ⟨hhalt e (by rw [he]), importEach_eq_error_iff.1 he⟩
  · rw [heq, hnew, List.append_cancel_left_eq] at hr
    exact hr ▸ hnamed

/-- A script without statements. -/
def emptyScript : Code := ⟨fun w => .returned () w, fun w h => ⟨h, .refl w, trivial⟩⟩

/-- An initialiser that only makes its package. -/
def newInitializer : Initializer where
  run w := .returned w.next { w with next := w.next + 1 }
  keeps _ h := ⟨⟨fun n p hp => Nat.lt_succ_of_lt (h.lt n p hp), h.inj⟩, ⟨fun _ _ hp => hp,
    fun _ hn => hn, fun _ _ _ _ _ _ ha => ha⟩, Nat.lt_succ_self _,
    fun n hn => (h.lt n _ hn).false, fun _ hn => hn⟩

/-- A library for `b`. -/
def libraryOfB : Library := fun s => if s = yogInit ++ ['b'] then some newInitializer else none

/-- The IDs 0 and 1 are called `a` and `b`. -/
def ab : YogEnv := { YogEnv.sample with id2name := fun id => if id = 0 then "a" else "b" }

/-- A directory with the script `a.yog`, and other files. -/
def dirOf (yog : Name → Option (Option Code)) (so : Name → Option Library) : Env where
  searchPath := ["lib".toList]
  yog path :=
    if path = makePackagePath "lib".toList ['a'] ".yog" then some (some emptyScript) else yog path
  so := so
  ofClass _ _ := none

/-- Nothing has been imported. -/
def freshVm : Vm := { world := ⟨fun _ => none, fun _ _ => none, 0⟩ }

theorem sound_freshVm : freshVm.world.Sound := ⟨by simp [freshVm], by simp [freshVm]⟩

theorem imports_scripts :
    Imports (dirOf (fun _ => some (some emptyScript)) fun _ => none) ab 0 [1] freshVm :=
  (imports_iff (by simp [component, ab]) sound_freshVm).2 (by
    simp [Plain, component, ab, sub, freshVm, FindsLibrary, library, dirOf, importPackage,
      importFrom, evalFile, emptyScript, Vm.newPackage, Vm.registerPackage, link])

/-- The initialiser `YogInit_b` of the library is not found. -/
theorem not_imports_library : ¬∀ (env : Env) (yenv : YogEnv) (name : ID) (rest : List ID) (vm : Vm),
    (∀ id ∈ name :: rest, '.' ∉ component yenv id) → vm.world.Sound →
      Imports env yenv name rest vm := by
  intro h
  have hdot : ∀ id ∈ [0, 1], '.' ∉ component ab id := by simp [component, ab]
  have hplain := plain_of_imports hdot sound_freshVm
    (h (dirOf (fun _ => none) fun _ => some libraryOfB) ab 0 [1] freshVm hdot sound_freshVm)
  simp [Plain, component, ab, sub, freshVm, FindsLibrary, library, dirOf, importPackage,
    importFrom, evalFile, emptyScript, packageName2pathHead, makePackagePath, Vm.newPackage,
    Vm.registerPackage, link] at hplain

end DottedImport

end Yog
