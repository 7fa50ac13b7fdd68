import Mathlib.Data.List.Forall2
import Mathlib.Order.MinMax
import Yog.Ffi

/-!
# The layout of structs and unions

`define_fields_to_StructClass` follows the layout in unbounded numbers as long as nothing overflows
and no type without an alignment unit stands behind another field (`follows_of_denotes`). What is
touched through a field is then inside the data, except behind an array of no elements and for the
read of a bit field whose word passes the end of its struct.
-/

namespace Yog

namespace Ffi

/-- The bits a field takes. -/
def Node.width : Node → ℕ
  | .array (.atom type) size => 8 * ((id2size type).getD 0 * size)
  | .array _ _ => 0
  | .atom type => 8 * (id2size type).getD 0
  | .bit _ width => width
  | .buffer | .pointer | .string => 64
  | .struct _ size _ _ => 8 * size

def Node.isBit : Node → Bool
  | .bit _ _ => true
  | _ => false

namespace Field

variable (f : Field Node)

/-- The first bit. -/
def start : ℕ := 8 * f.offset + f.pos

/-- The first bit behind it. -/
def stop : ℕ := f.start + f.node.width

end Field

/-- The fields of a struct are disjoint and in the order of their declaration, each at a multiple of
its alignment unit, and inside the size. -/
structure StructLayout (size : ℕ) (fields : List (Field Node)) : Prop where
  ordered : fields.Pairwise fun f g => f.stop ≤ g.start
  aligned : ∀ f ∈ fields, f.node.isBit = false → f.pos = 0 ∧
    ∀ unit, getAlignmentUnit f.node = .ok unit → min unit 8 ∣ f.offset
  inside : ∀ f ∈ fields, f.stop ≤ 8 * size

/-- The fields of a union all start at 0 and fit its size. -/
structure UnionLayout (size : ℕ) (fields : List (Field Node)) : Prop where
  start : ∀ f ∈ fields, f.start = 0
  inside : ∀ f ∈ fields, f.stop ≤ 8 * size

def Layout : Kind → ℕ → List (Field Node) → Prop
  | .structClass => StructLayout
  | .unionClass => UnionLayout

/-- The layout is right at every depth, and what is touched is inside. -/
inductive Right (flexible words : Bool) : Node → Prop
  | array {type size} : Right flexible words (.array type size)
  | atom {type} : Right flexible words (.atom type)
  | bit {signed width} : Right flexible words (.bit signed width)
  | buffer : Right flexible words .buffer
  | pointer : Right flexible words .pointer
  | string : Right flexible words .string
  | struct {kind size unit fields} : Layout kind size fields →
    (∀ f ∈ fields, Right flexible words f.node) →
    (∀ k, Touches flexible words (.struct kind size unit fields) 0 0 k → k < size) →
    Right flexible words (.struct kind size unit fields)

/-- It raises, or the result has a property. -/
inductive Sound {A : Type} (P : A → Prop) : Except Error A → Prop
  | error {e} : e ≠ .bug → Sound P (.error e)
  | ok {a} : P a → Sound P (.ok a)

/-- The layout is right if the description is accepted. -/
def Correct (flexible words : Bool) (type : FieldType) : Prop :=
  Sound (Right flexible words) (parseType type)

namespace Sound

variable {A B : Type} {P Q : A → Prop} {R : B → Prop}

theorem bind {r : Except Error A} {f : A → Except Error B} (h : Sound P r)
    (hf : ∀ a, P a → Sound R (f a)) : Sound R (r >>= f) := by
  rcases h with h | h
  · exact .error h
  · exact hf _ h

theorem mono {r : Except Error A} (h : Sound P r) (hPQ : ∀ a, P a → Q a) : Sound Q r := by
  rcases h with h | h
  · exact .error h
  · exact .ok (hPQ _ h)

theorem of_ok {a : A} (h : Sound P (.ok a)) : P a := by
  rcases h with _ | h
  exact h

end Sound

/-- The bytes that hold the bits. -/
def bytes (bits : ℕ) : ℕ := (bits + 7) / 8

/-- The next multiple of a number; of 0, it is 0. -/
def roundUp (offset alignment : ℕ) : ℕ := (offset + alignment - 1) / alignment * alignment

mutual

/-- The alignment unit: that of the first field. -/
def unit : FieldType → ℕ
  | .array type _ => unit type
  | .atom type => (id2size type).getD 0
  | .bit _ _ => 1
  | .buffer | .pointer | .string => 8
  | .struct fields => firstUnit fields
  | .union fields => largestUnit fields

def firstUnit : List FieldType → ℕ
  | [] => 0
  | type :: _ => unit type

def largestUnit : List FieldType → ℕ
  | [] => 0
  | type :: types => max (unit type) (largestUnit types)

end

mutual

/-- The size; that of a bit field does not count. -/
def extent : FieldType → ℕ
  | .array type size => extent type * size
  | .atom type => (id2size type).getD 0
  | .bit _ _ => 0
  | .buffer | .pointer | .string => 8
  | .struct fields => reach fields 0 0
  | .union fields => largestExtent fields

/-- Where the fields end that are laid out from an offset and a position in bits on. No bit field is
wider than a word. -/
def reach : List FieldType → ℕ → ℕ → ℕ
  | [], offset, pos => offset + bytes pos
  | .bit _ width :: types, offset, pos =>
    if pos + width ≤ 64 then reach types offset (pos + width)
    else reach types (offset + 8) (min width 64)
  | type :: types, offset, pos =>
    reach types (roundUp (offset + bytes pos) (min (unit type) 8) + extent type) 0

def largestExtent : List FieldType → ℕ
  | [] => 0
  | type :: types => max (extent type) (largestExtent types)

end

/-- A type without an alignment unit is the first to take space, from an offset and a position on. -/
def Fits : List FieldType → ℕ → ℕ → Prop
  | [], _, _ => True
  | .bit _ width :: types, offset, pos =>
    if pos + width ≤ 64 then Fits types offset (pos + width)
    else Fits types (offset + 8) (min width 64)
  | type :: types, offset, pos => (unit type = 0 → offset + bytes pos = 0) ∧
    Fits types (roundUp (offset + bytes pos) (min (unit type) 8) + extent type) 0

def FieldType.isArray : FieldType → Bool
  | .array _ _ => true
  | _ => false

def FieldType.isBit : FieldType → Bool
  | .bit _ _ => true
  | _ => false

/-- The descriptions that are laid out as they should be: there is no array of arrays, the fields of
a struct fit, and no field of a union is an array or a bit field. -/
inductive Fine : FieldType → Prop
  | array {type size} : type.isArray = false → Fine type → Fine (.array type size)
  | atom {type} : Fine (.atom type)
  | bit {signed width} : Fine (.bit signed width)
  | buffer : Fine .buffer
  | pointer : Fine .pointer
  | string : Fine .string
  | struct {fields} : (∀ f ∈ fields, Fine f) → reach fields 0 0 < 2 ^ 64 →
    Fits fields 0 0 → Fine (.struct fields)
  | union {fields} : (∀ f ∈ fields, Fine f) →
    (∀ f ∈ fields, f.isArray = false ∧ f.isBit = false) → Fine (.union fields)

theorem wrap_eq {n : ℕ} (h : n < 2 ^ 64) : wrap n = n := Nat.mod_eq_of_lt h

theorem align_zero (offset : ℕ) : align offset 0 = 0 := by
  have hmask : wrap (0 + (2 ^ 64 - 1)) = 2 ^ 64 - 1 := rfl
  unfold align
  rw [hmask]
  exact Nat.and_zero _

/-- Clearing the low bits. -/
theorem and_high {n : ℕ} (hn : n < 2 ^ 64) {k : ℕ} (hk : k ≤ 64) :
    n &&& (2 ^ 64 - (2 ^ k - 1 + 1)) = n / 2 ^ k * 2 ^ k := by
  have hpow : 2 ^ k ≤ 2 ^ 64 := Nat.pow_le_pow_right (by omega) hk
  have hpos : 0 < 2 ^ k := Nat.two_pow_pos k
  apply Nat.eq_of_testBit_eq
  intro i
  rw [Nat.testBit_and, Nat.testBit_two_pow_sub_succ (by omega), Nat.testBit_two_pow_sub_one,
    Nat.mul_comm, Nat.testBit_two_pow_mul, Nat.testBit_div_two_pow]
  by_cases hi : k ≤ i
  · rw [Nat.sub_add_cancel hi]
    by_cases hi' : i < 64
    · simp [hi, hi']
    · have hlow : n.testBit i = false :=
        Nat.testBit_lt_two_pow (hn.trans_le (Nat.pow_le_pow_right (by omega) (by omega)))
      simp [hlow]
  · simp [hi, Nat.lt_of_not_le hi]

theorem align_two_pow {offset k : ℕ} (hk : k ≤ 64) (h : offset + 2 ^ k - 1 < 2 ^ 64) :
    align offset (2 ^ k) = roundUp offset (2 ^ k) := by
  have hpos : 0 < 2 ^ k := Nat.two_pow_pos k
  have hmask : wrap (2 ^ k + (2 ^ 64 - 1)) = 2 ^ k - 1 := by
    unfold wrap
    omega
  have hoffset : wrap (offset + (2 ^ k - 1)) = offset + 2 ^ k - 1 := by
    rw [wrap_eq (by omega)]
    omega
  unfold align roundUp
  simp only [hmask, hoffset]
  exact and_high h hk

/-- An alignment that `align_offset` can come to. -/
def IsAlignment (alignment : ℕ) : Prop := alignment ∈ [0, 1, 2, 4, 8]

instance (alignment : ℕ) : Decidable (IsAlignment alignment) :=
  inferInstanceAs (Decidable (_ ∈ _))

theorem IsAlignment.two_pow {alignment : ℕ} (h : IsAlignment alignment) :
    alignment = 0 ∨ ∃ k ≤ 3, alignment = 2 ^ k := by
  unfold IsAlignment at h
  simp only [List.mem_cons, List.not_mem_nil, or_false] at h
  rcases h with rfl | rfl | rfl | rfl | rfl
  · exact .inl rfl
  · exact .inr ⟨0, by omega, rfl⟩
  · exact .inr ⟨1, by omega, rfl⟩
  · exact .inr ⟨2, by omega, rfl⟩
  · exact .inr ⟨3, by omega, rfl⟩

theorem IsAlignment.max {a b : ℕ} (ha : IsAlignment a) (hb : IsAlignment b) :
    IsAlignment (max a b) := by
  rcases max_choice a b with h | h
  · rwa [h]
  · rwa [h]

theorem align_eq {offset alignment : ℕ} (ha : IsAlignment alignment)
    (h : roundUp offset alignment < 2 ^ 64) :
    align offset alignment = roundUp offset alignment := by
  rcases ha.two_pow with rfl | ⟨k, hk, rfl⟩
  · rw [align_zero, roundUp, Nat.mul_zero]
  · refine align_two_pow (by omega) ?_
    have hpow : 2 ^ (64 - k) * 2 ^ k = 2 ^ 64 := by
      rw [← Nat.pow_add, Nat.sub_add_cancel (by omega)]
    have hdiv : (offset + 2 ^ k - 1) / 2 ^ k < 2 ^ (64 - k) := by
      rw [roundUp, ← hpow] at h
      exact Nat.lt_of_mul_lt_mul_right h
    rwa [Nat.div_lt_iff_lt_mul (Nat.two_pow_pos k), hpow] at hdiv

theorem le_roundUp {offset alignment : ℕ} (h : alignment = 0 → offset = 0) :
    offset ≤ roundUp offset alignment := by
  unfold roundUp
  rcases Nat.eq_zero_or_pos alignment with h0 | hpos
  · simp [h h0]
  · have hdiv := Nat.div_add_mod (offset + alignment - 1) alignment
    have hmod := Nat.mod_lt (offset + alignment - 1) hpos
    rw [Nat.mul_comm] at hdiv
    omega

theorem dvd_roundUp (offset alignment : ℕ) : alignment ∣ roundUp offset alignment :=
  Nat.dvd_mul_left _ _

theorem computeBitFieldSize_eq {pos : ℕ} (h : pos ≤ 64) : computeBitFieldSize pos = bytes pos := by
  unfold computeBitFieldSize
  rw [show 8 = 2 ^ 3 from rfl, align_two_pow (by omega) (by omega), roundUp, bytes]
  omega

mutual

theorem isAlignment_unit : ∀ type : FieldType, IsAlignment (min (unit type) 8)
  | .array type _ => isAlignment_unit type
  | .atom type => by rcases type <;> exact of_decide_eq_true rfl
  | .bit _ _ => of_decide_eq_true rfl
  | .buffer => by decide
  | .pointer => by decide
  | .string => by decide
  | .struct fields => isAlignment_firstUnit fields
  | .union fields => isAlignment_largestUnit fields

theorem isAlignment_firstUnit : ∀ fields : List FieldType, IsAlignment (min (firstUnit fields) 8)
  | [] => by decide
  | type :: _ => isAlignment_unit type

theorem isAlignment_largestUnit :
    ∀ fields : List FieldType, IsAlignment (min (largestUnit fields) 8)
  | [] => by decide
  | type :: types => by
    rw [largestUnit, min_max_distrib_right]
    exact (isAlignment_unit type).max (isAlignment_largestUnit types)

end

/-- The node of a type; the class of a struct has the size and the alignment unit it should have. -/
inductive Denotes : FieldType → Node → Prop
  | array {type node size} : Denotes type node → Denotes (.array type size) (.array node size)
  | atom {type} : Denotes (.atom type) (.atom type)
  | bit {signed width} : Denotes (.bit signed width) (.bit signed width)
  | buffer : Denotes .buffer .buffer
  | pointer : Denotes .pointer .pointer
  | string : Denotes .string .string
  | struct {types fields} :
    Right false false (.struct .structClass (reach types 0 0) (firstUnit types) fields) →
    Denotes (.struct types) (.struct .structClass (reach types 0 0) (firstUnit types) fields)
  | union {types fields} :
    Right false false (.struct .unionClass (largestExtent types) (largestUnit types) fields) →
    Denotes (.union types)
      (.struct .unionClass (largestExtent types) (largestUnit types) fields)

/-- `create_field` takes the node. -/
def Placeable : Node → Prop
  | .array (.atom _) _ => True
  | .array _ _ => False
  | .bit _ width => 0 < width ∧ width ≤ 64
  | _ => True

namespace Denotes

variable {type : FieldType} {node : Node}

theorem right (h : Denotes type node) : Right false false node := by
  rcases h with _ | _ | _ | _ | _ | _ | h | h
  · exact .array
  · exact .atom
  · exact .bit
  · exact .buffer
  · exact .pointer
  · exact .string
  · exact h
  · exact h

theorem isBit (h : Denotes type node) : node.isBit = type.isBit := by
  rcases h with _ | _ | _ | _ | _ | _ | _ | _ <;> rfl

theorem getSize (h : Denotes type node) (harray : type.isArray = false)
    (hbit : type.isBit = false) : Sound (· = extent type) (getSize node) := by
  rcases h with _ | @⟨type⟩ | _ | _ | _ | _ | _ | _
  · nomatch harray
  · simp only [Ffi.getSize, extent]
    rcases id2size type with _ | size
    · exact .error nofun
    · exact .ok rfl
  · nomatch hbit
  all_goals exact .ok rfl

theorem getAlignmentUnitOfNode (h : Denotes type node) (harray : type.isArray = false) :
    Sound (· = unit type) (getAlignmentUnitOfNode node) := by
  rcases h with _ | @⟨type⟩ | _ | _ | _ | _ | _ | _
  · nomatch harray
  · exact getSize .atom rfl rfl
  all_goals exact .ok rfl

theorem getAlignmentUnit (h : Denotes type node) (hfine : Fine type) :
    Sound (· = unit type) (getAlignmentUnit node) := by
  rcases h with ⟨h⟩ | h | h | h | h | h | h | h
  · rcases hfine with ⟨harray, _⟩
    exact h.getAlignmentUnitOfNode harray
  · exact getAlignmentUnitOfNode .atom rfl
  all_goals exact .ok rfl

theorem createField (node : Node) : Sound (fun _ => Placeable node) (createField node) := by
  rcases node with ⟨type, _⟩ | _ | ⟨_, width⟩ | _ | _ | _ | _
  · rcases type
    all_goals first
      | exact .ok trivial
      | exact .error nofun
  · exact .ok trivial
  · rw [Ffi.createField]
    split_ifs with h0 h64
    · exact .error nofun
    · exact .error nofun
    · exact .ok ⟨Nat.pos_of_ne_zero h0, Nat.le_of_not_lt h64⟩
  all_goals exact .ok trivial

theorem mapTypeOfFields (node : Node) : Sound (fun _ => True) (mapTypeOfFields node) := by
  unfold Ffi.mapTypeOfFields
  split
  · split_ifs
    · exact .ok trivial
    · exact .error nofun
  · exact .ok trivial

end Denotes

theorem reach_bit (types : List FieldType) (signed : Bool) (width offset pos : ℕ) :
    reach (.bit signed width :: types) offset pos =
      if pos + width ≤ 64 then reach types offset (pos + width)
      else reach types (offset + 8) (min width 64) := by
  rw [reach]

theorem reach_other {type : FieldType} (h : type.isBit = false) (types : List FieldType)
    (offset pos : ℕ) : reach (type :: types) offset pos =
      reach types (roundUp (offset + bytes pos) (min (unit type) 8) + extent type) 0 := by
  rcases type with _ | _ | _ | _ | _ | _ | _ | _
  · rw [reach]
    nofun
  · rw [reach]
    nofun
  · nomatch h
  all_goals
    rw [reach]
    nofun

theorem fits_other {type : FieldType} (h : type.isBit = false) (types : List FieldType)
    (offset pos : ℕ) : Fits (type :: types) offset pos ↔
      (unit type = 0 → offset + bytes pos = 0) ∧
        Fits types (roundUp (offset + bytes pos) (min (unit type) 8) + extent type) 0 := by
  rcases type with _ | _ | _ | _ | _ | _ | _ | _
  · rfl
  · rfl
  · nomatch h
  all_goals rfl

/-- Where a layout stands is inside the struct. -/
theorem le_size {size : ℕ} : ∀ {types : List FieldType} {offset pos : ℕ},
    Fits types offset pos → reach types offset pos ≤ size → pos ≤ 64 →
      offset + bytes pos ≤ size
  | [], _, _, _, hreach, _ => by rwa [reach] at hreach
  | type :: types, offset, pos, hfits, hreach, hpos => by
    have hbytes : bytes pos ≤ 8 := by
      unfold bytes
      omega
    rcases hbit : type.isBit with _ | _
    · rw [fits_other hbit] at hfits
      rw [reach_other hbit] at hreach
      have hnext := le_size hfits.2 hreach (Nat.zero_le _)
      have hround : offset + bytes pos ≤ roundUp (offset + bytes pos) (min (unit type) 8) :=
        le_roundUp fun h0 => hfits.1 (by omega)
      omega
    · rcases type with _ | _ | ⟨_, width⟩ | _ | _ | _ | _ | _
      case bit =>
        unfold Fits at hfits
        rw [reach_bit] at hreach
        by_cases hunder : pos + width ≤ 64
        · rw [if_pos hunder] at hfits hreach
          have hnext := le_size hfits hreach hunder
          have hmono : bytes pos ≤ bytes (pos + width) := Nat.div_le_div_right (by omega)
          omega
        · rw [if_neg hunder] at hfits hreach
          have hnext := le_size hfits hreach (Nat.min_le_right _ _)
          omega
      all_goals nomatch hbit

theorem alignOffset_other {node : Node} (h : node.isBit = false) (offset pos : ℕ) :
    alignOffset node offset pos = (getAlignmentUnit node).bind fun size =>
      .ok (align (wrap (offset + computeBitFieldSize pos)) (if 8 < size then 8 else size), 0) := by
  rcases node with _ | _ | _ | _ | _ | _ | _
  case bit => nomatch h
  all_goals rfl

theorem alignOffset_bit {signed : Bool} {width offset pos : ℕ} (hpos : pos ≤ 64)
    (hoffset : pos + width ≤ 64 ∨ offset + 8 < 2 ^ 64) :
    Sound (fun r => 0 < width → width ≤ 64 → r = if pos + width ≤ 64 then (offset, pos)
      else (offset + 8, 0)) (alignOffset (.bit signed width) offset pos) := by
  have hword : 0 < width → width ≤ 64 →
      (64 ≤ wrap (pos + width + (2 ^ 64 - 1)) ↔ ¬ pos + width ≤ 64) := by
    unfold wrap
    omega
  rw [alignOffset]
  by_cases hn : 64 ≤ wrap (pos + width + (2 ^ 64 - 1))
  · rw [if_pos hn]
    refine .ok fun hpositive hwide => ?_
    have hover := (hword hpositive hwide).1 hn
    rw [if_neg hover, wrap_eq (hoffset.resolve_left hover)]
  · rw [if_neg hn]
    refine .ok fun hpositive hwide => ?_
    have hunder := not_not.1 (mt (hword hpositive hwide).2 hn)
    rw [if_pos hunder]

namespace Denotes

variable {type : FieldType} {node : Node}

theorem alignOffset (h : Denotes type node) (hfine : Fine type) (hbit : type.isBit = false)
    {offset pos : ℕ} (hpos : pos ≤ 64) (hoffset : offset + bytes pos < 2 ^ 64)
    (hround : roundUp (offset + bytes pos) (min (unit type) 8) < 2 ^ 64) :
    Sound (· = (roundUp (offset + bytes pos) (min (unit type) 8), 0))
      (alignOffset node offset pos) := by
  rw [alignOffset_other (h.isBit.trans hbit)]
  refine (h.getAlignmentUnit hfine).bind fun size hsize => ?_
  subst hsize
  have hmin : (if 8 < unit type then 8 else unit type) = min (unit type) 8 := by
    split_ifs <;> omega
  rw [hmin, computeBitFieldSize_eq hpos, wrap_eq hoffset,
    align_eq (isAlignment_unit type) hround]
  exact .ok rfl

theorem getTotalFieldSize_plain (h : Denotes type node) (harray : type.isArray = false)
    (hbit : type.isBit = false) : Sound (· = extent type) (getTotalFieldSize node) := by
  have heq : Ffi.getTotalFieldSize node = Ffi.getSize node := by
    rcases h with _ | _ | _ | _ | _ | _ | _ | _
    · nomatch harray
    · rfl
    · nomatch hbit
    all_goals rfl
  rw [heq]
  exact h.getSize harray hbit

theorem getTotalFieldSize (h : Denotes type node) (hplace : Placeable node)
    (hbit : type.isBit = false) (hextent : extent type < 2 ^ 64) :
    Sound (· = extent type) (getTotalFieldSize node) := by
  rcases harray : type.isArray with _ | _
  · exact h.getTotalFieldSize_plain harray hbit
  · rcases h with h | _ | _ | _ | _ | _ | _ | _
    case array =>
      rcases h with _ | _ | _ | _ | _ | _ | _ | _
      case atom size type =>
        refine Sound.bind (getSize (@atom type) rfl rfl) fun unit hunit => ?_
        subst hunit
        exact .ok (wrap_eq hextent)
      all_goals exact hplace.elim
    all_goals nomatch harray

theorem width (h : Denotes type node) (hplace : Placeable node) (hbit : type.isBit = false) :
    node.width = 8 * extent type := by
  rcases h with h | _ | _ | _ | _ | _ | _ | _
  · rcases h with _ | _ | _ | _ | _ | _ | _ | _
    case atom => rfl
    all_goals exact hplace.elim
  · rfl
  · nomatch hbit
  all_goals rfl

end Denotes

/-- How a field lies in a struct of a size. -/
structure Placed (size : ℕ) (f : Field Node) : Prop where
  placeable : Placeable f.node
  right : Right false false f.node
  stop : f.stop ≤ 8 * size
  aligned : f.node.isBit = false → f.pos = 0 ∧
    ∀ unit, getAlignmentUnit f.node = .ok unit → min unit 8 ∣ f.offset

/-- What the loop comes to. -/
structure Laid (size : ℕ) (types : List FieldType) (offset pos : ℕ)
    (r : List (Field Node) × ℕ × ℕ) : Prop where
  reaches : r.2.1 + bytes r.2.2 = reach types offset pos
  small : r.2.2 ≤ 64
  ordered : r.1.Pairwise fun f g => f.stop ≤ g.start
  behind : ∀ f ∈ r.1, 8 * offset + pos ≤ f.start
  placed : ∀ f ∈ r.1, Placed size f

/-- One more field in front. -/
theorem Laid.cons {size : ℕ} {types types' : List FieldType} {offset pos offset' pos' : ℕ}
    {f : Field Node} {r : List (Field Node) × ℕ × ℕ} (h : Laid size types offset' pos' r)
    (hreach : reach types' offset pos = reach types offset' pos')
    (hstart : 8 * offset + pos ≤ f.start) (hstop : f.stop ≤ 8 * offset' + pos')
    (hf : Placed size f) : Laid size types' offset pos (f :: r.1, r.2) where
  reaches := h.reaches.trans hreach.symm
  small := h.small
  ordered := List.pairwise_cons.2 ⟨fun g hg => hstop.trans (h.behind g hg), h.ordered⟩
  behind := by
    refine List.forall_mem_cons.2 ⟨hstart, fun g hg => ?_⟩
    have hg' := h.behind g hg
    have hle : f.start ≤ f.stop := Nat.le_add_right _ _
    omega
  placed := List.forall_mem_cons.2 ⟨hf, h.placed⟩

/-- The loop follows the layout in unbounded numbers, wherever it starts. -/
def Follows (size : ℕ) (types : List FieldType) (nodes : List Node) : Prop :=
  ∀ {offset pos : ℕ}, Fits types offset pos → reach types offset pos ≤ size → pos ≤ 64 →
    Sound (Laid size types offset pos) (layOut nodes offset pos)

section Follows

variable {size : ℕ} {types : List FieldType} {nodes : List Node}

/-- A field that is no bit field is in front. -/
theorem Follows.other (hsize : size < 2 ^ 64) {type : FieldType} {node : Node}
    (hnode : Denotes type node) (hfine : Fine type) (hbit : type.isBit = false)
    (ih : Follows size types nodes) : Follows size (type :: types) (node :: nodes) := by
  intro offset pos hfits hreach hpos
  have hhere := le_size hfits hreach hpos
  have hreach' := reach_other hbit types offset pos
  rw [fits_other hbit] at hfits
  rw [hreach'] at hreach
  have hnext := le_size hfits.2 hreach (Nat.zero_le _)
  have hround : offset + bytes pos ≤ roundUp (offset + bytes pos) (min (unit type) 8) :=
    le_roundUp fun h0 => hfits.1 (by omega)
  have hbits : 8 * offset + pos ≤ 8 * (offset + bytes pos) := by
    unfold bytes
    omega
  rw [layOut]
  refine (hnode.alignOffset hfine hbit hpos (by omega) (by omega)).bind fun _ hr => ?_
  subst hr
  refine (Denotes.createField node).bind fun _ hplace => ?_
  refine (hnode.getTotalFieldSize hplace hbit (by omega)).bind fun _ hr => ?_
  subst hr
  refine (Denotes.mapTypeOfFields node).bind fun _ _ => ?_
  have hwidth := hnode.width hplace hbit
  have hnode' := hnode.isBit.trans hbit
  have hmove : bitWidth node = 0 := by
    rcases node with _ | _ | _ | _ | _ | _ | _
    case bit => nomatch hnode'
    all_goals rfl
  have hsum : roundUp (offset + bytes pos) (min (unit type) 8) + extent type < 2 ^ 64 := by
    omega
  simp only [wrap_eq hsum, hmove, Nat.zero_add]
  refine (ih hfits.2 hreach (Nat.zero_le _)).bind fun r hr => ?_
  refine .ok (hr.cons (f := ⟨node, _, 0⟩) hreach' ?_ ?_
    ⟨hplace, hnode.right, ?_, fun _ => ⟨rfl, ?_⟩⟩)
  · show _ ≤ 8 * roundUp (offset + bytes pos) (min (unit type) 8) + 0
    omega
  · show 8 * roundUp (offset + bytes pos) (min (unit type) 8) + 0 + node.width ≤ _
    omega
  · show 8 * roundUp (offset + bytes pos) (min (unit type) 8) + 0 + node.width ≤ _
    omega
  · intro size' hsize'
    have hunit := hnode.getAlignmentUnit hfine
    rw [hsize'] at hunit
    rw [hunit.of_ok]
    exact dvd_roundUp _ _

/-- A bit field is in front. -/
theorem Follows.bit (hsize : size < 2 ^ 64) (signed : Bool) (width : ℕ)
    (ih : Follows size types nodes) :
    Follows size (.bit signed width :: types) (.bit signed width :: nodes) := by
  intro offset pos hfits hreach hpos
  have hreach' := reach_bit types signed width offset pos
  rw [hreach'] at hreach
  unfold Fits at hfits
  rw [layOut]
  have hoffset : pos + width ≤ 64 ∨ offset + 8 < 2 ^ 64 := by
    by_cases hunder : pos + width ≤ 64
    · exact .inl hunder
    · rw [if_neg hunder] at hfits hreach
      have hnext := le_size hfits hreach (Nat.min_le_right _ _)
      omega
  refine (alignOffset_bit hpos hoffset).bind fun ⟨offset', pos'⟩ hr => ?_
  refine (Denotes.createField (.bit signed width)).bind fun _ hplace => ?_
  obtain ⟨hpositive, hwide⟩ : 0 < width ∧ width ≤ 64 := hplace
  have hr := hr hpositive hwide
  obtain ⟨hstart, hunder, hfits', hreach''⟩ : 8 * offset + pos ≤ 8 * offset' + pos' ∧
      pos' + width ≤ 64 ∧ Fits types offset' (pos' + width) ∧
      reach (.bit signed width :: types) offset pos = reach types offset' (pos' + width) := by
    by_cases hunder : pos + width ≤ 64
    · rw [if_pos hunder] at hfits hreach' hr
      obtain ⟨rfl, rfl⟩ := Prod.mk.inj hr
      exact ⟨le_rfl, hunder, hfits, hreach'⟩
    · rw [if_neg hunder] at hr
      rw [if_neg hunder, Nat.min_eq_left hwide] at hfits hreach'
      obtain ⟨rfl, rfl⟩ := Prod.mk.inj hr
      rw [Nat.zero_add]
      exact ⟨by omega, hwide, hfits, hreach'⟩
  rw [← hreach', hreach''] at hreach
  have hstop := le_size hfits' hreach hunder
  unfold bytes at hstop
  refine Sound.bind (P := (· = 0)) (.ok rfl) fun _ hzero => ?_
  subst hzero
  refine (Denotes.mapTypeOfFields (.bit signed width)).bind fun _ _ => ?_
  have hsum : offset' + 0 < 2 ^ 64 := by omega
  rw [wrap_eq hsum]
  refine (ih hfits' hreach hunder).bind fun r hr => ?_
  refine .ok (hr.cons (f := ⟨.bit signed width, offset', pos'⟩) hreach'' hstart ?_
    ⟨⟨hpositive, hwide⟩, .bit, ?_, nofun⟩)
  · show 8 * offset' + pos' + width ≤ _
    omega
  · show 8 * offset' + pos' + width ≤ _
    omega

theorem follows_of_denotes (hsize : size < 2 ^ 64) (h : List.Forall₂ Denotes types nodes) :
    (∀ type ∈ types, Fine type) → Follows size types nodes := by
  induction h with
  | nil =>
    intro _ offset pos _ _ hpos
    exact .ok ⟨by rw [reach], hpos, .nil, (fun f hf => nomatch hf), (fun f hf => nomatch hf)⟩
  | @cons type node types nodes hnode _ ih =>
    intro hfine
    obtain ⟨hhere, hrest⟩ := List.forall_mem_cons.1 hfine
    rcases hbit : type.isBit with _ | _
    · exact Follows.other hsize hnode hhere hbit (ih hrest)
    · rcases hnode with _ | _ | @⟨signed, width⟩ | _ | _ | _ | _ | _
      case bit => exact Follows.bit hsize signed width (ih hrest)
      all_goals nomatch hbit

end Follows

/-- A view further on touches the same bytes further on. -/
theorem Touches.shift {flexible words : Bool} {node : Node} {offset pos k : ℕ}
    (h : Touches flexible words node offset pos k) : ∀ {a b : ℕ}, offset = a + b →
      ∃ j, k = a + j ∧ Touches flexible words node b pos j := by
  induction h with
  | atom hsize hk =>
    rintro a b rfl
    exact ⟨_, Nat.add_assoc _ _ _, .atom hsize hk⟩
  | element hunit hi hk =>
    rintro a b rfl
    exact ⟨_, by rw [Nat.add_assoc a, Nat.add_assoc a], .element hunit hi hk⟩
  | writtenBits hk =>
    rintro a b rfl
    exact ⟨_, by rw [Nat.add_assoc a, Nat.add_assoc a], .writtenBits hk⟩
  | buffer hk =>
    rintro a b rfl
    exact ⟨_, Nat.add_assoc _ _ _, .buffer hk⟩
  | pointer hk =>
    rintro a b rfl
    exact ⟨_, Nat.add_assoc _ _ _, .pointer hk⟩
  | string hk =>
    rintro a b rfl
    exact ⟨_, Nat.add_assoc _ _ _, .string hk⟩
  | bits hfield hbit hword hk =>
    rintro a b rfl
    exact ⟨_, by rw [Nat.add_assoc a, Nat.add_assoc a], .bits hfield hbit hword hk⟩
  | copy hk =>
    rintro a b rfl
    exact ⟨_, Nat.add_assoc _ _ _, .copy hk⟩
  | view hfield _ ih =>
    rintro a b rfl
    obtain ⟨j, hj, hview⟩ := ih (Nat.add_assoc _ _ _)
    exact ⟨j, hj, .view hfield hview⟩

/-- What is touched through a field that lies in a struct is in the struct. -/
theorem Placed.touches {size : ℕ} {f : Field Node} (h : Placed size f) {k : ℕ}
    (hk : Touches false false f.node f.offset f.pos k) : k < size := by
  obtain ⟨node, offset, pos⟩ := f
  obtain ⟨hplace, hright, hstop, haligned⟩ := h
  replace hstop : 8 * offset + pos + node.width ≤ 8 * size := hstop
  simp only at hk hplace hright haligned
  have hstruct : ∀ {kind inner alignmentUnit fields},
      node = .struct kind inner alignmentUnit fields → k < size := by
    rintro kind inner alignmentUnit fields rfl
    rcases hright with _ | _ | _ | _ | _ | _ | ⟨_, _, hinner⟩
    rw [(haligned rfl).1] at hk hstop
    obtain ⟨j, rfl, hj⟩ := hk.shift (Nat.add_zero offset).symm
    have hlt := hinner j hj
    have hwidth : (Node.struct kind inner alignmentUnit fields).width = 8 * inner := rfl
    omega
  rcases hk with ⟨hsize, hk⟩ | ⟨hunit, hi, hk⟩ | hk | hk | hk | hk | ⟨hfield, _, _, hk⟩ | hk |
    ⟨hfield, hk⟩
  · simp only [Node.width, hsize, Option.getD_some] at hstop
    omega
  · rename_i unit n i k
    have hlt : i < n := hi.resolve_right fun h => Bool.false_ne_true h.2
    have hmul : unit * (i + 1) ≤ unit * n := Nat.mul_le_mul_left _ hlt
    rw [Nat.mul_succ] at hmul
    simp only [Node.width, hunit, Option.getD_some] at hstop
    omega
  · simp only [Node.width] at hstop
    omega
  · simp only [Node.width] at hstop
    omega
  · simp only [Node.width] at hstop
    omega
  · simp only [Node.width] at hstop
    omega
  all_goals exact hstruct rfl

theorem touches_class {kind : Kind} {size alignmentUnit : ℕ} {fields : List (Field Node)}
    (h : ∀ f ∈ fields, Placed size f) {k : ℕ}
    (hk : Touches false false (.struct kind size alignmentUnit fields) 0 0 k) : k < size := by
  rcases hk with _ | _ | _ | _ | _ | _ | ⟨_, _, hword, hk⟩ | hk | ⟨hfield, hk⟩
  · have hword' := hword.resolve_right Bool.false_ne_true
    omega
  · rwa [Nat.zero_add]
  · rw [Nat.zero_add] at hk
    exact (h _ hfield).touches hk

theorem defineFieldsToStructClass_denotes {types : List FieldType} {nodes : List Node}
    (h : List.Forall₂ Denotes types nodes) (hfine : ∀ type ∈ types, Fine type)
    (hreach : reach types 0 0 < 2 ^ 64) (hfits : Fits types 0 0) :
    Sound (Denotes (.struct types)) (defineFieldsToStructClass nodes) := by
  have hunit : Sound (· = firstUnit types) (getAlignmentUnitOfFirst nodes) := by
    rcases h with _ | ⟨hnode, _⟩
    · exact .ok rfl
    · exact hnode.getAlignmentUnit (hfine _ List.mem_cons_self)
  refine hunit.bind fun _ hr => ?_
  subst hr
  have hlaid := follows_of_denotes hreach h hfine hfits le_rfl (Nat.zero_le _)
  refine hlaid.bind fun ⟨fields, offset, pos⟩ hr => ?_
  have hsize : wrap (offset + computeBitFieldSize pos) = reach types 0 0 := by
    rw [computeBitFieldSize_eq hr.small, hr.reaches, wrap_eq hreach]
  simp only [hsize]
  refine .ok (.struct (.struct ⟨hr.ordered, fun f hf => (hr.placed f hf).aligned,
    fun f hf => (hr.placed f hf).stop⟩ (fun f hf => (hr.placed f hf).right) fun k hk => ?_))
  exact touches_class hr.placed hk

theorem getMax_eq {measure : Node → Except Error ℕ} {f : FieldType → ℕ} {types : List FieldType}
    {nodes : List Node}
    (h : List.Forall₂ (fun type node => Sound (· = f type) (measure node)) types nodes) :
    ∀ largest, Sound (· = max largest (types.foldr (fun type n => max (f type) n) 0))
      (getMax measure nodes largest) := by
  induction h with
  | nil => exact fun largest => .ok (Nat.max_zero _).symm
  | cons hnode _ ih =>
    intro largest
    refine hnode.bind fun _ hr => ?_
    subst hr
    rw [List.foldr_cons, ← Nat.max_assoc]
    exact ih _

theorem largestUnit_eq (types : List FieldType) :
    largestUnit types = types.foldr (fun type n => max (unit type) n) 0 := by
  induction types with
  | nil => rw [largestUnit, List.foldr_nil]
  | cons type types ih => rw [largestUnit, List.foldr_cons, ih]

theorem largestExtent_eq (types : List FieldType) :
    largestExtent types = types.foldr (fun type n => max (extent type) n) 0 := by
  induction types with
  | nil => rw [largestExtent, List.foldr_nil]
  | cons type types ih => rw [largestExtent, List.foldr_cons, ih]

theorem extent_le {types : List FieldType} {type : FieldType} (h : type ∈ types) :
    extent type ≤ largestExtent types := by
  induction types with
  | nil => nomatch h
  | cons type' types ih =>
    rw [largestExtent]
    rcases List.mem_cons.1 h with rfl | h
    · exact Nat.le_max_left _ _
    · exact (ih h).trans (Nat.le_max_right _ _)

/-- How a field lies in a union. -/
structure Overlaid (types : List FieldType) (f : Field Node) : Prop where
  type : ∃ type ∈ types, Denotes type f.node
  placeable : Placeable f.node
  offset : f.offset = 0
  pos : f.pos = 0

theorem layOver_overlaid {types : List FieldType} {nodes : List Node}
    (h : List.Forall₂ Denotes types nodes)
    (hplain : ∀ type ∈ types, type.isArray = false ∧ type.isBit = false) :
    ∀ maxSize, Sound (fun fields => ∀ f ∈ fields, Overlaid types f) (layOver nodes maxSize) := by
  induction h with
  | nil => exact fun _ => .ok fun f hf => nomatch hf
  | @cons type node types nodes hnode _ ih =>
    intro maxSize
    rw [List.forall_mem_cons] at hplain
    have hupdate : Sound (fun _ => True) (updateUnionElements node maxSize) := by
      refine (hnode.getSize hplain.1.1 hplain.1.2).bind fun size _ => ?_
      split_ifs
      · exact .ok trivial
      · exact (Denotes.mapTypeOfFields node).bind fun _ _ => .ok trivial
    rw [layOver]
    refine (Denotes.createField node).bind fun _ hplace => ?_
    refine hupdate.bind fun maxSize' _ => ?_
    refine (ih hplain.2 maxSize').bind fun fields hfields => .ok ?_
    refine List.forall_mem_cons.2 ⟨⟨⟨type, List.mem_cons_self, hnode⟩, hplace, rfl, rfl⟩, ?_⟩
    intro f hf
    obtain ⟨⟨type', htype', hf'⟩, hplace', hoffset, hpos⟩ := hfields f hf
    exact ⟨⟨type', List.mem_cons_of_mem _ htype', hf'⟩, hplace', hoffset, hpos⟩

theorem defineFieldsToUnionClass_denotes {types : List FieldType} {nodes : List Node}
    (h : List.Forall₂ Denotes types nodes) (hfine : ∀ type ∈ types, Fine type)
    (hplain : ∀ type ∈ types, type.isArray = false ∧ type.isBit = false) :
    Sound (Denotes (.union types)) (defineFieldsToUnionClass nodes) := by
  have hunits : List.Forall₂ (fun type node => Sound (· = unit type) (getAlignmentUnit node))
      types nodes :=
    ((List.forall₂_and_left _ _).2 ⟨hfine, h⟩).imp fun _ _ h => h.2.getAlignmentUnit h.1
  have hextents : List.Forall₂ (fun type node => Sound (· = extent type) (getTotalFieldSize node))
      types nodes :=
    ((List.forall₂_and_left _ _).2 ⟨hplain, h⟩).imp fun _ _ h =>
      h.2.getTotalFieldSize_plain h.1.1 h.1.2
  refine (getMax_eq hunits 0).bind fun _ hr => ?_
  subst hr
  refine (layOver_overlaid h hplain 0).bind fun fields hfields => ?_
  refine (getMax_eq hextents 0).bind fun _ hr => ?_
  subst hr
  rw [Nat.zero_max, Nat.zero_max, ← largestUnit_eq, ← largestExtent_eq]
  have hplaced : ∀ f ∈ fields, Placed (largestExtent types) f := by
    intro f hf
    obtain ⟨⟨type, htype, hdenotes⟩, hplace, hoffset, hpos⟩ := hfields f hf
    have hbit := (hplain type htype).2
    refine ⟨hplace, hdenotes.right, ?_, fun _ => ⟨hpos, fun _ _ => ?_⟩⟩
    · have hle := extent_le htype
      have hwidth := hdenotes.width hplace hbit
      rw [Field.stop, Field.start, hoffset, hpos, hwidth]
      omega
    · rw [hoffset]
      exact Nat.dvd_zero _
  refine .ok (.union (.struct ⟨fun f hf => ?_, fun f hf => (hplaced f hf).stop⟩
    (fun f hf => (hplaced f hf).right) fun k hk => touches_class hplaced hk))
  rw [Field.start, (hfields f hf).offset, (hfields f hf).pos]

mutual

theorem parseType_denotes : ∀ {type : FieldType}, Fine type → Sound (Denotes type) (parseType type)
  | .array _ _, h => by
    rcases h with ⟨_, h⟩
    exact (parseType_denotes h).bind fun node hnode => .ok (.array hnode)
  | .atom _, _ => .ok .atom
  | .bit _ _, _ => .ok .bit
  | .buffer, _ => .ok .buffer
  | .pointer, _ => .ok .pointer
  | .string, _ => .ok .string
  | .struct types, h => by
    rcases h with _ | _ | _ | _ | _ | _ | ⟨hfine, hreach, hfits⟩ | _
    refine (parseFields_denotes hfine).bind fun nodes hnodes => ?_
    exact defineFieldsToStructClass_denotes hnodes hfine hreach hfits
  | .union types, h => by
    rcases h with _ | _ | _ | _ | _ | _ | _ | ⟨hfine, hplain⟩
    refine (parseFields_denotes hfine).bind fun nodes hnodes => ?_
    exact defineFieldsToUnionClass_denotes hnodes hfine hplain

theorem parseFields_denotes : ∀ {types : List FieldType}, (∀ type ∈ types, Fine type) →
    Sound (List.Forall₂ Denotes types) (parseFields types)
  | [], _ => .ok .nil
  | type :: types, h => by
    rw [List.forall_mem_cons] at h
    refine (parseType_denotes h.1).bind fun node hnode => ?_
    exact (parseFields_denotes h.2).bind fun nodes hnodes => .ok (.cons hnode hnodes)

end

/-- Whatever is described is laid out as it should be, but for what the description may not have. -/
theorem correct_of_fine {type : FieldType} (h : Fine type) : Correct false false type :=
  (parseType_denotes h).mono fun _ h => h.right

/-- A character, bit fields in two words, a struct, and a bit field whose word passes the end. -/
theorem correct_example : Correct false false (.struct [.atom .char, .bit true 3, .bit false 63,
    .struct [.array (.atom .int32) 3, .atom .double], .bit true 3]) := by
  have hinner : Fine (.struct [.array (.atom .int32) 3, .atom .double]) := by
    refine .struct ?_ (by decide) ?_
    · simpa using ⟨.array rfl .atom, .atom⟩
    · simp [Fits, unit, id2size]
  refine correct_of_fine (.struct ?_ (by decide) ?_)
  · simpa using ⟨.atom, .bit, .bit, hinner, .bit⟩
  · simp [Fits, unit, firstUnit, id2size]

/-- The first element of an array of no elements is behind the struct. -/
theorem not_correct_flexible : ¬ Correct true true (.struct [.array (.atom .char) 0]) := by
  intro h
  have hparse : parseType (.struct [.array (.atom .char) 0]) =
      .ok (.struct .structClass 0 1 [⟨.array (.atom .char) 0, 0, 0⟩]) := rfl
  rw [Correct, hparse] at h
  rcases h.of_ok with _ | _ | _ | _ | _ | _ | ⟨_, _, htouches⟩
  have hfirst : Touches true true (.array (.atom .char) 0) 0 0 (0 + 1 * 0 + 0) :=
    .element rfl (.inr ⟨rfl, rfl⟩) Nat.one_pos
  exact absurd (htouches 0 (.view List.mem_cons_self hfirst)) (Nat.lt_irrefl 0)

end Ffi

end Yog
