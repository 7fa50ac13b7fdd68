import Yog.Proofs.TextRoundTrip

/-!
# The grammar of integers

The literals have a sign, the prefix of a base and digits with underscores between them. `to_i`
drops the underscores and leaves the rest to `strtol`, which knows white space, signs, prefixes and
an end of its own.
-/

namespace Yog

/-- The value of a digit to the base, in either case. -/
def charDigit (base : ℕ) (c : YogChar) : Option ℕ := (digitValue c.val).filter (· < base)

/-- Digits with single underscores between them, and what they make of a number read before. -/
inductive Numeral (base : ℕ) : ℕ → List YogChar → ℕ → Prop
  | digit {v d : ℕ} {c : YogChar} (hc : charDigit base c = some d) :
    Numeral base v [c] (v * base + d)
  | cons {v d n : ℕ} {c : YogChar} {s : List YogChar} (hc : charDigit base c = some d)
    (hs : Numeral base (v * base + d) s n) : Numeral base v (c :: s) n
  | underscore {v d n : ℕ} {c : YogChar} {s : List YogChar} (hc : charDigit base c = some d)
    (hs : Numeral base (v * base + d) s n) : Numeral base v (c :: yogChar '_' :: s) n

/-- The base a letter behind a zero stands for. -/
def prefixBase (c : YogChar) : Option ℕ :=
  if c = yogChar 'b' ∨ c = yogChar 'B' then some 2
  else if c = yogChar 'o' ∨ c = yogChar 'O' then some 8
  else if c = yogChar 'd' ∨ c = yogChar 'D' then some 10
  else if c = yogChar 'x' ∨ c = yogChar 'X' then some 16
  else none

/-- A numeral behind the prefix of its base. -/
def Prefixed (s : List YogChar) (n : ℕ) : Prop :=
  ∃ c b body, s = yogChar '0' :: c :: body ∧ prefixBase c = some b ∧ Numeral b 0 body n

/-- The number of a text without sign; a prefix overrides the radix. -/
def Unsigned (radix : ℕ) (s : List YogChar) (n : ℕ) : Prop :=
  Prefixed s n ∨ Numeral radix 0 s n ∧ ∀ m, ¬ Prefixed s m

/-- The integer of a text. -/
inductive Denotes (radix : ℕ) : List YogChar → Int → Prop
  | unsigned {s : List YogChar} {n : ℕ} (h : Unsigned radix s n) : Denotes radix s n
  | plus {s : List YogChar} {n : ℕ} (h : Unsigned radix s n) : Denotes radix (yogChar '+' :: s) n
  | minus {s : List YogChar} {n : ℕ} (h : Unsigned radix s n) :
    Denotes radix (yogChar '-' :: s) (-n)

/-- The loop of `normalize_as_number`: letters in lower case, and no underscore. -/
def unscored : List YogChar → Option (List YogChar)
  | [] => some []
  | c :: rest =>
    if isAlpha c.val then (unscored rest).map (toLower c :: ·)
    else if c = yogChar '_' then
      if rest.head?.any fun d => isAlpha d.val ∨ isDigit d.val then unscored rest else none
    else (unscored rest).map (c :: ·)

theorem normalizeLoop_some (self : List YogChar) {s t : List YogChar} (h : unscored s = some t)
    (normalized : List YogChar) : normalizeLoop self s normalized = .ok (normalized ++ t) := by
  induction s generalizing t normalized with
  | nil =>
    obtain rfl := Option.some.inj h
    rw [List.append_nil]
    rfl
  | cons c rest ih =>
    rw [unscored] at h
    rw [normalizeLoop.eq_def]
    simp only
    split_ifs at h ⊢ with halpha hscore hnext
    · obtain ⟨t', ht, rfl⟩ := Option.map_eq_some_iff.1 h
      simp [ih ht]
    · rcases rest with _ | ⟨d, rest⟩
      · cases hnext
      · have hnext' : ¬ (¬ isAlpha d.val ∧ ¬ isDigit d.val) := by
          rw [← not_or, not_not]
          simpa using hnext
        simp only
        rw [if_neg hnext']
        exact ih h normalized
    · obtain ⟨t', ht, rfl⟩ := Option.map_eq_some_iff.1 h
      simp [ih ht]

theorem normalizeLoop_none (self : List YogChar) {s : List YogChar} (h : unscored s = none)
    (normalized : List YogChar) :
    ∃ fmt arg, normalizeLoop self s normalized = .error (.valueError fmt arg) := by
  induction s generalizing normalized with
  | nil => cases h
  | cons c rest ih =>
    rw [unscored] at h
    rw [normalizeLoop.eq_def]
    simp only
    split_ifs at h ⊢ with halpha hscore hnext
    · exact ih (by simpa using h) _
    · rcases rest with _ | ⟨d, rest⟩
      · exact ⟨_, _, rfl⟩
      · simp only
        split_ifs
        · exact ⟨_, _, rfl⟩
        · exact ih h normalized
    · rcases rest with _ | ⟨d, rest⟩
      · exact ⟨_, _, rfl⟩
      · have hnext' : ¬ isAlpha d.val ∧ ¬ isDigit d.val := by
          rw [← not_or]
          simpa using hnext
        simp only
        rw [if_pos hnext']
        exact ⟨_, _, rfl⟩
    · exact ih (by simpa using h) _

section Digits

variable {base : ℕ} {c : YogChar} {d : ℕ}

/-- Digits are digits and letters. -/
theorem isDigit_or_isAlpha (h : charDigit base c = some d) : isDigit c.val ∨ isAlpha c.val := by
  obtain ⟨h, -⟩ := Option.filter_eq_some_iff.1 h
  unfold digitValue at h
  unfold isAlpha
  split_ifs at h with h₁ h₂ h₃
  · exact .inl h₁
  · exact .inr (.inl h₂)
  · exact .inr (.inr h₃)

theorem ne_underscore (h : charDigit base c = some d) : c ≠ yogChar '_' := by
  rintro rfl
  rcases isDigit_or_isAlpha h with h | h
  · exact absurd h (by decide)
  · exact absurd h (by decide)

theorem toLower_val (c : YogChar) :
    (toLower c).val = if 65 ≤ c.val ∧ c.val ≤ 90 then c.val + 32 else c.val := by
  unfold toLower
  split_ifs with h
  · exact Nat.mod_eq_of_lt (by omega)
  · rfl

theorem toLower_of_not_isAlpha (h : ¬ isAlpha c.val) : toLower c = c := by
  rw [toLower, if_neg]
  exact fun hc => h (.inl hc)

theorem charDigit_toLower (base : ℕ) (c : YogChar) :
    charDigit base (toLower c) = charDigit base c := by
  unfold charDigit digitValue isDigit
  rw [toLower_val]
  congr 1
  grind

/-- A digit is kept, in lower case. -/
theorem unscored_cons (h : charDigit base c = some d) (s : List YogChar) :
    unscored (c :: s) = (unscored s).map (toLower c :: ·) := by
  have hscore := ne_underscore h
  by_cases halpha : isAlpha c.val
  · rw [unscored, if_pos halpha]
  · rw [unscored, if_neg halpha, if_neg hscore, toLower_of_not_isAlpha halpha]

/-- An underscore in front of a digit is dropped. -/
theorem unscored_underscore (h : charDigit base c = some d) (s : List YogChar) :
    unscored (yogChar '_' :: c :: s) = unscored (c :: s) := by
  rw [unscored, if_neg (by decide), if_pos rfl, if_pos]
  simpa [or_comm] using isDigit_or_isAlpha h

end Digits

/-- The head is kept, as far as digits go, or it is an underscore. -/
theorem unscored_cases {c : YogChar} {s t : List YogChar} (h : unscored (c :: s) = some t) :
    (∃ c' t', t = c' :: t' ∧ unscored s = some t' ∧
      ∀ base, charDigit base c' = charDigit base c) ∨
    c = yogChar '_' ∧ unscored s = some t ∧
      ∃ d s', s = d :: s' ∧ (isDigit d.val ∨ isAlpha d.val) := by
  rw [unscored] at h
  split_ifs at h with halpha hscore hnext
  · obtain ⟨t', ht, rfl⟩ := Option.map_eq_some_iff.1 h
    exact .inl ⟨_, t', rfl, ht, fun base => charDigit_toLower base c⟩
  · rcases s with _ | ⟨d, s⟩
    · cases hnext
    · exact .inr ⟨hscore, h, d, s, rfl, by simpa [or_comm] using hnext⟩
  · obtain ⟨t', ht, rfl⟩ := Option.map_eq_some_iff.1 h
    exact .inl ⟨_, t', rfl, ht, fun base => rfl⟩

/-- The values of characters that are all digits. -/
def Spelled (base : ℕ) (s : List YogChar) (ds : List ℕ) : Prop :=
  s.map (charDigit base) = ds.map some

theorem spelled_cons {base : ℕ} {c : YogChar} {s : List YogChar} {ds : List ℕ}
    (h : Spelled base (c :: s) ds) :
    ∃ d ds', ds = d :: ds' ∧ charDigit base c = some d ∧ Spelled base s ds' := by
  rcases ds with _ | ⟨d, ds⟩
  · simp [Spelled] at h
  · obtain ⟨h₁, h₂⟩ := List.cons.inj h
    exact ⟨d, ds, rfl, h₁, h₂⟩

/-- A numeral is a digit and what is left of the rest without its underscores. -/
theorem numeral_cons_iff {base v n : ℕ} {c : YogChar} {s : List YogChar} :
    Numeral base v (c :: s) n ↔ ∃ d t ds, charDigit base c = some d ∧ unscored s = some t ∧
      Spelled base t ds ∧ n = ds.foldl (fun v d => v * base + d) (v * base + d) := by
  constructor
  · intro h
    generalize hs : c :: s = s' at h
    induction h generalizing c s with
    | digit hc =>
      obtain ⟨rfl, rfl⟩ := List.cons.inj hs
      exact ⟨_, [], [], hc, rfl, rfl, rfl⟩
    | @cons v d n c' s' hc h ih =>
      obtain ⟨rfl, rfl⟩ := List.cons.inj hs
      rcases s with _ | ⟨c₁, s⟩
      · cases h
      obtain ⟨d₁, t, ds, hc₁, ht, hds, rfl⟩ := ih rfl
      refine ⟨d, toLower c₁ :: t, d₁ :: ds, hc, ?_, ?_, rfl⟩
      · rw [unscored_cons hc₁, ht]
        rfl
      · simpa [Spelled, charDigit_toLower, hc₁] using hds
    | @underscore v d n c' s' hc h ih =>
      obtain ⟨rfl, rfl⟩ := List.cons.inj hs
      rcases s' with _ | ⟨c₁, s⟩
      · cases h
      obtain ⟨d₁, t, ds, hc₁, ht, hds, rfl⟩ := ih rfl
      refine ⟨d, toLower c₁ :: t, d₁ :: ds, hc, ?_, ?_, rfl⟩
      · rw [unscored_underscore hc₁, unscored_cons hc₁, ht]
        rfl
      · simpa [Spelled, charDigit_toLower, hc₁] using hds
  · rintro ⟨d, t, ds, hc, ht, hds, rfl⟩
    induction hlen : s.length using Nat.strong_induction_on generalizing v c s d t ds with
    | _ k ih =>
    rcases s with _ | ⟨c₁, s⟩
    · obtain rfl := Option.some.inj ht
      obtain rfl : ds = [] := by simpa [Spelled] using hds
      exact .digit hc
    rcases unscored_cases ht with ⟨c', t', rfl, ht', hsame⟩ | ⟨rfl, hs, c₂, s, rfl, hnext⟩
    · obtain ⟨d₁, ds, rfl, hc₁, hds'⟩ := spelled_cons hds
      exact .cons hc (ih s.length (by simp at hlen; omega) d₁ t' ds
        ((hsame base).symm.trans hc₁) ht' hds' rfl)
    · rcases unscored_cases hs with ⟨c', t', rfl, ht', hsame⟩ | ⟨rfl, -⟩
      · obtain ⟨d₁, ds, rfl, hc₁, hds'⟩ := spelled_cons hds
        exact .underscore hc (ih s.length (by simp at hlen; omega) d₁ t' ds
          ((hsame base).symm.trans hc₁) ht' hds' rfl)
      · exact absurd hnext (by decide)

/-- What is left of the digits `strtol` has taken, and their number. -/
theorem takeDigits_append {base : ℕ} {bs : List Byte} {ds : List ℕ}
    (h : bs.map (digitOf base) = ds.map some) {tail : List Byte}
    (htail : ∀ b ∈ tail.head?, digitOf base b = none) (v : ℕ) :
    takeDigits base v (bs ++ tail) = (ds.foldl (fun v d => v * base + d) v, tail) := by
  induction bs generalizing ds v with
  | nil =>
    obtain rfl : ds = [] := by simpa using h
    rcases tail with _ | ⟨b, tail⟩
    · rfl
    · rw [List.nil_append, takeDigits, htail b rfl]
      rfl
  | cons b bs ih =>
    rcases ds with _ | ⟨d, ds⟩
    · simp at h
    · obtain ⟨h₁, h₂⟩ := List.cons.inj h
      rw [List.cons_append, takeDigits, h₁]
      exact ih h₂ _

theorem takeDigits_spec (base : ℕ) (s : List Byte) (v : ℕ) : ∃ (bs : List Byte) (ds : List ℕ)
    (tail : List Byte), s = bs ++ tail ∧ bs.map (digitOf base) = ds.map some ∧
    (∀ b ∈ tail.head?, digitOf base b = none) ∧
    takeDigits base v s = (ds.foldl (fun v d => v * base + d) v, tail) := by
  induction s generalizing v with
  | nil => exact ⟨[], [], [], rfl, rfl, nofun, rfl⟩
  | cons b s ih =>
    rcases hb : digitOf base b with _ | d
    · refine ⟨[], [], b :: s, rfl, rfl, ?_, ?_⟩
      · rintro _ ⟨⟩
        exact hb
      · rw [takeDigits, hb]
        rfl
    · obtain ⟨bs, ds, tail, rfl, hbs, htail, htake⟩ := ih (v * base + d)
      refine ⟨b :: bs, d :: ds, tail, rfl, by rw [List.map_cons, hb, hbs, List.map_cons], htail, ?_⟩
      rw [takeDigits, hb]
      exact htake

/-- The signs `strtol` knows. -/
inductive Signed : List Byte → Bool → Prop
  | none : Signed [] false
  | plus : Signed [toByte '+'.toNat] false
  | minus : Signed [toByte '-'.toNat] true

/-- The prefix it knows in front of a digit. -/
inductive Hex (base : ℕ) : List Byte → Prop
  | none : Hex base []
  | sixteen (x : Byte) (h : base = 16) (hx : x.val = 'x'.toNat ∨ x.val = 'X'.toNat) :
    Hex base [toByte '0'.toNat, x]

/-- The texts `strtol` takes whole, as far as there is no NUL: white space, a sign and a prefix may
stand in front of the digits. -/
inductive Whole (base : ℕ) : List Byte → Int → Prop
  | nothing {s : List Byte} (h : byteAt s 0 = 0) : Whole base s 0
  | digits {spaces sign hex bs tail : List Byte} {negative : Bool} {ds : List ℕ}
    (hspaces : ∀ b ∈ spaces, isSpace b.val) (hsign : Signed sign negative) (hhex : Hex base hex)
    (hbs : bs.map (digitOf base) = ds.map some) (hne : bs ≠ []) (htail : byteAt tail 0 = 0) :
    Whole base (spaces ++ sign ++ hex ++ bs ++ tail)
      (if negative then -Lib.read base ds else Lib.read base ds)

/-- `strtol` behind the sign: the number and what follows it. -/
def unsignedStrtol (base : ℕ) (t : List Byte) : Option (ℕ × List Byte) :=
  let hex := base = 16 ∧ byteAt t 0 = '0'.toNat ∧
    (byteAt t 1 = 'x'.toNat ∨ byteAt t 1 = 'X'.toNat) ∧ ((t.drop 2).head?.bind (digitOf 16)).isSome
  let t := if hex then t.drop 2 else t
  if (t.head?.bind (digitOf base)).isNone then none else some (takeDigits base 0 t)

/-- A digit to a base up to sixteen is no `x`, and none is NUL, a sign or white space. -/
theorem digitOf_byte {base : ℕ} {b : Byte} {d : ℕ} (h : digitOf base b = some d) :
    ¬ isSpace b.val ∧ b.val ≠ 0 ∧ b.val ≠ '-'.toNat ∧ b.val ≠ '+'.toNat ∧
      (base ≤ 16 → b.val ≠ 'x'.toNat ∧ b.val ≠ 'X'.toNat) := by
  obtain ⟨h, hlt⟩ := Option.filter_eq_some_iff.1 h
  have hlt := of_decide_eq_true hlt
  have h0 : 'x'.toNat = 120 := rfl
  have h1 : 'X'.toNat = 88 := rfl
  have h2 : '-'.toNat = 45 := rfl
  have h3 : '+'.toNat = 43 := rfl
  unfold digitValue at h
  unfold isSpace
  split_ifs at h with h₁ h₂ h₃
  · have hd := Option.some.inj h
    unfold isDigit at h₁
    omega
  · have hd := Option.some.inj h
    omega
  · have hd := Option.some.inj h
    omega

theorem digitOf_zero {base : ℕ} {b : Byte} (h : b.val = 0) : digitOf base b = none := by
  rcases hb : digitOf base b with _ | d
  · rfl
  · exact absurd h (digitOf_byte hb).2.1

theorem unsignedStrtol_digits {base : ℕ} {hex bs tail : List Byte} {ds : List ℕ}
    (hhex : Hex base hex) (hbs : bs.map (digitOf base) = ds.map some) (hne : bs ≠ [])
    (htail : byteAt tail 0 = 0) :
    unsignedStrtol base (hex ++ bs ++ tail) = some (Lib.read base ds, tail) := by
  have hnone : ∀ b ∈ tail.head?, digitOf base b = none := by
    rcases tail with _ | ⟨b, tail⟩
    · exact nofun
    · rintro _ ⟨⟩
      exact digitOf_zero htail
  obtain ⟨b, bs, rfl⟩ := List.exists_cons_of_ne_nil hne
  rcases ds with _ | ⟨d, ds⟩
  · simp at hbs
  have htake := takeDigits_append hbs hnone 0
  obtain ⟨hb, hbs⟩ := List.cons.inj hbs
  have hsome : ((b :: bs ++ tail).head?.bind (digitOf base)).isNone = false := by
    simp [hb]
  unfold unsignedStrtol
  rcases hhex with _ | ⟨x, rfl, hx⟩
  · have hno : ¬ (base = 16 ∧ byteAt ([] ++ (b :: bs) ++ tail) 0 = '0'.toNat ∧
        (byteAt ([] ++ (b :: bs) ++ tail) 1 = 'x'.toNat ∨
          byteAt ([] ++ (b :: bs) ++ tail) 1 = 'X'.toNat) ∧
        ((([] ++ (b :: bs) ++ tail).drop 2).head?.bind (digitOf 16)).isSome) := by
      rintro ⟨rfl, -, hx, -⟩
      have hsecond : byteAt (bs ++ tail) 0 = 'x'.toNat ∨ byteAt (bs ++ tail) 0 = 'X'.toNat := hx
      rcases bs with _ | ⟨b', bs⟩
      · rw [List.nil_append, htail] at hsecond
        exact absurd hsecond (by decide)
      · rcases ds with _ | ⟨d', ds⟩
        · simp at hbs
        · have h := (digitOf_byte (List.cons.inj hbs).1).2.2.2.2 le_rfl
          rcases hsecond with hx | hx
          · exact h.1 hx
          · exact h.2 hx
    simp only [hno, if_false]
    rw [List.nil_append, hsome, if_neg Bool.false_ne_true, htake]
    rfl
  · have hyes : 16 = 16 ∧ byteAt ([toByte '0'.toNat, x] ++ (b :: bs) ++ tail) 0 = '0'.toNat ∧
        (byteAt ([toByte '0'.toNat, x] ++ (b :: bs) ++ tail) 1 = 'x'.toNat ∨
          byteAt ([toByte '0'.toNat, x] ++ (b :: bs) ++ tail) 1 = 'X'.toNat) ∧
        ((([toByte '0'.toNat, x] ++ (b :: bs) ++ tail).drop 2).head?.bind (digitOf 16)).isSome :=
      ⟨rfl, rfl, hx, by simp [hb]⟩
    simp only [hyes, and_self, if_true]
    have hdrop : ([toByte '0'.toNat, x] ++ (b :: bs) ++ tail).drop 2 = b :: bs ++ tail := rfl
    rw [hdrop, hsome, if_neg Bool.false_ne_true, htake]
    rfl

/-- What `strtol` has taken behind the sign. -/
theorem unsignedStrtol_some {base : ℕ} {t tail : List Byte} {n : ℕ}
    (h : unsignedStrtol base t = some (n, tail)) : ∃ hex bs ds, t = hex ++ bs ++ tail ∧
      Hex base hex ∧ bs.map (digitOf base) = ds.map some ∧ bs ≠ [] ∧ n = Lib.read base ds := by
  have hdigits : ∀ t, ¬ (t.head?.bind (digitOf base)).isNone → takeDigits base 0 t = (n, tail) →
      ∃ (bs : List Byte) (ds : List ℕ), t = bs ++ tail ∧ bs.map (digitOf base) = ds.map some ∧
        bs ≠ [] ∧ n = Lib.read base ds := by
    intro t hhead htake
    obtain ⟨bs, ds, tail', rfl, hbs, htail, htake'⟩ := takeDigits_spec base t 0
    obtain ⟨rfl, rfl⟩ := Prod.mk.inj (htake.symm.trans htake')
    refine ⟨bs, ds, rfl, hbs, ?_, rfl⟩
    rintro rfl
    rcases tail with _ | ⟨b, tail⟩
    · exact hhead rfl
    · exact hhead (by simp [htail b rfl])
  unfold unsignedStrtol at h
  by_cases hhex : base = 16 ∧ byteAt t 0 = '0'.toNat ∧
      (byteAt t 1 = 'x'.toNat ∨ byteAt t 1 = 'X'.toNat) ∧
      ((t.drop 2).head?.bind (digitOf 16)).isSome
  · simp only [hhex, and_self, if_true] at h
    split_ifs at h with hhead
    obtain ⟨rfl, h₀, h₁, h₂⟩ := hhex
    obtain ⟨bs, ds, hbs, hds, hne, hn⟩ := hdigits (t.drop 2) hhead (Option.some.inj h)
    rcases t with _ | ⟨b, _ | ⟨x, t⟩⟩
    · cases h₂
    · cases h₂
    · have hb : b = toByte '0'.toNat := Fin.ext h₀
      refine ⟨[b, x], bs, ds, ?_, ?_, hds, hne, hn⟩
      · rw [List.drop_succ_cons, List.drop_succ_cons, List.drop_zero] at hbs
        rw [hbs]
        rfl
      · rw [hb]
        exact .sixteen x rfl h₁
  · simp only [hhex, if_false] at h
    split_ifs at h with hhead
    obtain ⟨bs, ds, hbs, hds, hne, hn⟩ := hdigits t hhead (Option.some.inj h)
    exact ⟨[], bs, ds, hbs, .none, hds, hne, hn⟩

/-- The sign at the head and what follows it. -/
def signOf (t : List Byte) : Bool × List Byte :=
  (t.head?.any fun b => b.val = '-'.toNat,
    if t.head?.any fun b => b.val = '-'.toNat ∨ b.val = '+'.toNat then t.tail else t)

theorem strtol_eq (s : List Byte) (base : ℕ) : strtol s base =
    let t := signOf (s.dropWhile fun b => isSpace b.val)
    match unsignedStrtol base t.2 with
    | none => ⟨0, s, false⟩
    | some (v, rest) =>
      let z : Int := if t.1 then -v else v
      ⟨strtolOf z, rest, decide (z < longMin ∨ longMax < z)⟩ := by
  unfold strtol unsignedStrtol signOf
  simp only
  split_ifs <;> rfl

theorem signOf_unsigned {b : Byte} (h₁ : b.val ≠ '-'.toNat) (h₂ : b.val ≠ '+'.toNat)
    (t : List Byte) : signOf (b :: t) = (false, b :: t) := by
  rw [signOf, List.head?_cons, Option.any_some, Option.any_some,
    if_neg (by simp only [h₁, h₂]; decide)]
  simp only [h₁]
  rfl

theorem signOf_append {sign t : List Byte} {negative : Bool} (hsign : Signed sign negative)
    (ht : ∀ b ∈ t.head?, b.val ≠ '-'.toNat ∧ b.val ≠ '+'.toNat) :
    signOf (sign ++ t) = (negative, t) := by
  rcases hsign with _ | _ | _
  · rcases t with _ | ⟨b, t⟩
    · rfl
    · obtain ⟨h₁, h₂⟩ := ht b rfl
      exact signOf_unsigned h₁ h₂ t
  · rfl
  · rfl

theorem signOf_spec (t : List Byte) :
    ∃ sign, Signed sign (signOf t).1 ∧ t = sign ++ (signOf t).2 := by
  rcases t with _ | ⟨b, t⟩
  · exact ⟨[], .none, rfl⟩
  by_cases h₁ : b.val = '-'.toNat
  · obtain rfl : b = toByte '-'.toNat := Fin.ext h₁
    exact ⟨_, .minus, rfl⟩
  by_cases h₂ : b.val = '+'.toNat
  · obtain rfl : b = toByte '+'.toNat := Fin.ext h₂
    exact ⟨_, .plus, rfl⟩
  rw [signOf_unsigned h₁ h₂]
  exact ⟨[], .none, rfl⟩

theorem head_digits {base : ℕ} {hex bs : List Byte} (tail : List Byte) {ds : List ℕ}
    (hhex : Hex base hex) (hbs : bs.map (digitOf base) = ds.map some) (hne : bs ≠ []) :
    ∃ b t, hex ++ bs ++ tail = b :: t ∧ ¬ isSpace b.val ∧ b.val ≠ '-'.toNat ∧
      b.val ≠ '+'.toNat := by
  rcases hhex with _ | ⟨x, -, -⟩
  · obtain ⟨b, bs, rfl⟩ := List.exists_cons_of_ne_nil hne
    rcases ds with _ | ⟨d, ds⟩
    · simp at hbs
    · have h := digitOf_byte (List.cons.inj hbs).1
      exact ⟨b, bs ++ tail, rfl, h.1, h.2.2.1, h.2.2.2.1⟩
  · exact ⟨_, x :: (bs ++ tail), rfl, by decide, by decide, by decide⟩

theorem unsignedStrtol_none {base : ℕ} {t : List Byte} (h : byteAt t 0 = 0) :
    unsignedStrtol base t = none := by
  rcases hu : unsignedStrtol base t with _ | ⟨n, tail⟩
  · rfl
  obtain ⟨hex, bs, ds, rfl, hhex, hbs, hne, -⟩ := unsignedStrtol_some hu
  rcases hhex with _ | ⟨x, -, -⟩
  · obtain ⟨b, bs, rfl⟩ := List.exists_cons_of_ne_nil hne
    rcases ds with _ | ⟨d, ds⟩
    · simp at hbs
    · exact absurd h (digitOf_byte (List.cons.inj hbs).1).2.1
  · cases h

/-- `strtol` comes to the end of a text it takes whole, with its number. -/
theorem strtol_whole {base : ℕ} {s : List Byte} {z : Int} (h : Whole base s z) :
    ∃ rest, byteAt rest 0 = 0 ∧
      strtol s base = ⟨strtolOf z, rest, decide (z < longMin ∨ longMax < z)⟩ := by
  rcases h with h | @⟨spaces, sign, hex, bs, tail, negative, ds, hspaces, hsign, hhex, hbs, hne,
    htail⟩
  · refine ⟨s, h, ?_⟩
    rw [strtol_eq]
    rcases s with _ | ⟨b, s⟩
    · simp only [List.dropWhile_nil, signOf, List.head?_nil, Option.any_none, Bool.false_eq_true,
        if_false, unsignedStrtol_none h]
      rfl
    · obtain rfl : b = 0 := Fin.ext h
      have hdrop : (0 :: s).dropWhile (fun b : Byte => decide (isSpace b.val)) = 0 :: s := rfl
      simp only [hdrop, signOf_unsigned (b := 0) (by decide) (by decide), unsignedStrtol_none h]
      rfl
  · obtain ⟨b, t, ht, hb⟩ := head_digits tail hhex hbs hne
    have hdrop : (spaces ++ sign ++ hex ++ bs ++ tail).dropWhile (fun b => decide (isSpace b.val)) =
        sign ++ (hex ++ bs ++ tail) := by
      have hpos : ∀ b ∈ spaces, decide (isSpace b.val) := by simpa using hspaces
      rw [List.append_assoc, List.append_assoc, List.append_assoc,
        List.dropWhile_append_of_pos hpos, ← List.append_assoc hex, ht]
      rcases hsign with _ | _ | _
      · rw [List.nil_append, List.dropWhile_cons_of_neg (by simpa using hb.1)]
      · rfl
      · rfl
    have hof : signOf (sign ++ (hex ++ bs ++ tail)) = (negative, hex ++ bs ++ tail) := by
      apply signOf_append hsign
      rw [ht]
      rintro _ ⟨⟩
      exact hb.2
    refine ⟨tail, htail, ?_⟩
    rw [strtol_eq, hdrop]
    simp only [hof, unsignedStrtol_digits hhex hbs hne htail]

/-- Where it comes to the end it has taken the text whole. -/
theorem whole_of_strtol {base : ℕ} {s : List Byte} (h : byteAt (strtol s base).rest 0 = 0) :
    ∃ z, Whole base s z := by
  obtain ⟨sign, hsign, ht⟩ := signOf_spec (s.dropWhile fun b => isSpace b.val)
  rw [strtol_eq] at h
  rcases hu : unsignedStrtol base (signOf (s.dropWhile fun b => isSpace b.val)).2 with _ | ⟨n, tail⟩
  · simp only [hu] at h
    exact ⟨0, .nothing h⟩
  · simp only [hu] at h
    obtain ⟨hex, bs, ds, hbs, hhex, hds, hne, -⟩ := unsignedStrtol_some hu
    have hspaces : ∀ b ∈ s.takeWhile fun b => isSpace b.val, isSpace b.val := fun b hb =>
      of_decide_eq_true (List.mem_takeWhile_imp (p := fun b : Byte => decide (isSpace b.val)) hb)
    have hs : s = (s.takeWhile fun b => isSpace b.val) ++ sign ++ hex ++ bs ++ tail := by
      have happend := List.takeWhile_append_dropWhile
        (p := fun b : Byte => decide (isSpace b.val)) (l := s)
      rw [ht, hbs] at happend
      simpa [List.append_assoc] using happend.symm
    rw [hs]
    exact ⟨_, .digits hspaces hsign hhex hds hne h⟩

/-- The base of the prefix at the head and what follows it. -/
def prefixOf : List YogChar → Option (ℕ × List YogChar)
  | c :: p :: body => if c = yogChar '0' then (prefixBase p).map (·, body) else none
  | _ => none

/-- The base `to_i` takes for a text without sign, and the digits. -/
def taken (radix : ℕ) (s : List YogChar) : ℕ × List YogChar :=
  (prefixOf s).getD (if s.head? = some (yogChar '0') ∧ 1 < s.length then 10 else radix, s)

/-- The digits without underscores. -/
def bare (s : List YogChar) : Option (List YogChar) :=
  match prefixOf s with
  | some (_, body) => if body = [] then none else unscored body
  | none =>
    match s with
    | [] => none
    | c :: rest => (unscored rest).map (c :: ·)

def isNegative (s : List YogChar) : Bool := s.head? = some (yogChar '-')

/-- A text without its sign. -/
def magnitude (s : List YogChar) : List YogChar :=
  if s.head? = some (yogChar '+') ∨ s.head? = some (yogChar '-') then s.tail else s

/-- The sign that is kept. -/
def keptSign (s : List YogChar) : List YogChar := if isNegative s then [yogChar '-'] else []

/-- What `to_i_of_radix` does with the normalized text. -/
def convert (self normalized : List YogChar) (base : ℕ) : Except TextError Integer :=
  let r := strtol (ascii.convFromYog normalized) base
  if byteAt r.rest 0 ≠ 0 then .error (.valueError "Invalid literal: %S" (.string self))
  else if r.erange then Bignum.fromStr normalized base
  else .ok (Integer.fromInt r.value)

theorem normalizeDigits_cons (self sign : List YogChar) (radix : Int) (c p : YogChar)
    (rest : List YogChar) : normalizeDigits self sign radix c (p :: rest) =
      if c = yogChar '0' then
        match prefixBase p with
        | some b =>
          if rest = [] then .error (.valueError "String ends with radix: %S" (.string self))
          else (normalizeLoop self rest sign).map (·, (b : Int))
        | none => (normalizeLoop self (p :: rest) (sign ++ [c])).map (·, 10)
      else (normalizeLoop self (p :: rest) (sign ++ [c])).map (·, radix) := by
  rw [normalizeDigits]
  unfold prefixBase
  by_cases hc : c = yogChar '0'
  · simp only [if_pos hc]
    split_ifs <;> first | contradiction | rfl
  · simp only [if_neg hc]
    rfl

theorem normalizeDigits_some (self sign : List YogChar) (radix : ℕ) {c : YogChar}
    {rest t : List YogChar} (h : bare (c :: rest) = some t) :
    normalizeDigits self sign radix c rest =
      .ok (sign ++ t, ((taken radix (c :: rest)).1 : Int)) := by
  rcases rest with _ | ⟨p, rest⟩
  · obtain rfl : [c] = t := Option.some.inj h
    simp [normalizeDigits, normalizeLoop, taken, prefixOf]
    rfl
  rw [normalizeDigits_cons]
  by_cases hc : c = yogChar '0'
  · rcases hp : prefixBase p with _ | b
    · have hprefix : prefixOf (c :: p :: rest) = none := by simp [prefixOf, hc, hp]
      simp only [bare, hprefix] at h
      obtain ⟨t', ht, rfl⟩ := Option.map_eq_some_iff.1 h
      have htaken : (taken radix (c :: p :: rest)).1 = 10 := by
        rw [taken, hprefix]
        simp [hc]
      rw [if_pos hc, htaken, normalizeLoop_some self ht]
      simp [Except.map]
    · have hprefix : prefixOf (c :: p :: rest) = some (b, rest) := by simp [prefixOf, hc, hp]
      simp only [bare, hprefix] at h
      split_ifs at h with hrest
      have htaken : (taken radix (c :: p :: rest)).1 = b := by simp [taken, hprefix]
      simp only [if_pos hc, if_neg hrest, htaken, normalizeLoop_some self h]
      rfl
  · have hprefix : prefixOf (c :: p :: rest) = none := by simp [prefixOf, hc]
    simp only [bare, hprefix] at h
    obtain ⟨t', ht, rfl⟩ := Option.map_eq_some_iff.1 h
    have htaken : (taken radix (c :: p :: rest)).1 = radix := by
      rw [taken, hprefix]
      simp [hc]
    rw [if_neg hc, htaken, normalizeLoop_some self ht]
    simp [Except.map]

theorem normalizeDigits_none (self sign : List YogChar) (radix : ℕ) {c : YogChar}
    {rest : List YogChar} (h : bare (c :: rest) = none) :
    ∃ fmt arg, normalizeDigits self sign radix c rest = .error (.valueError fmt arg) := by
  rcases rest with _ | ⟨p, rest⟩
  · cases h
  rw [normalizeDigits_cons]
  by_cases hc : c = yogChar '0'
  · rcases hp : prefixBase p with _ | b
    · have hprefix : prefixOf (c :: p :: rest) = none := by simp [prefixOf, hc, hp]
      simp only [bare, hprefix, Option.map_eq_none_iff] at h
      obtain ⟨fmt, arg, hn⟩ := normalizeLoop_none self h (sign ++ [c])
      exact ⟨fmt, arg, by rw [if_pos hc, hn]; rfl⟩
    · have hprefix : prefixOf (c :: p :: rest) = some (b, rest) := by simp [prefixOf, hc, hp]
      simp only [bare, hprefix] at h
      split_ifs at h with hrest
      · exact ⟨_, _, by simp only [if_pos hc, if_pos hrest]; rfl⟩
      · obtain ⟨fmt, arg, hn⟩ := normalizeLoop_none self h sign
        exact ⟨fmt, arg, by simp only [if_pos hc, if_neg hrest, hn]; rfl⟩
  · have hprefix : prefixOf (c :: p :: rest) = none := by simp [prefixOf, hc]
    simp only [bare, hprefix, Option.map_eq_none_iff] at h
    obtain ⟨fmt, arg, hn⟩ := normalizeLoop_none self h (sign ++ [c])
    exact ⟨fmt, arg, by rw [if_neg hc, hn]; rfl⟩

theorem normalizeAsNumber_eq (self : List YogChar) (radix : ℕ) : (magnitude self = [] ∧
    ∃ fmt arg, normalizeAsNumber self radix = .error (.valueError fmt arg)) ∨
    ∃ c rest, magnitude self = c :: rest ∧
      normalizeAsNumber self radix = normalizeDigits self (keptSign self) radix c rest := by
  rcases self with _ | ⟨c, rest⟩
  · exact .inl ⟨rfl, _, _, rfl⟩
  by_cases hplus : c = yogChar '+'
  · subst hplus
    rcases rest with _ | ⟨c, rest⟩
    · exact .inl ⟨rfl, _, _, rfl⟩
    · exact .inr ⟨c, rest, rfl, rfl⟩
  by_cases hminus : c = yogChar '-'
  · subst hminus
    rcases rest with _ | ⟨c, rest⟩
    · exact .inl ⟨rfl, _, _, rfl⟩
    · exact .inr ⟨c, rest, rfl, rfl⟩
  · refine .inr ⟨c, rest, by simp [magnitude, hplus, hminus], ?_⟩
    simp [normalizeAsNumber, keptSign, isNegative, hplus, hminus]

theorem toIOfRadix_some {s t : List YogChar} (h : bare (magnitude s) = some t) (radix : ℕ) :
    toIOfRadix s radix = convert s (keptSign s ++ t) (taken radix (magnitude s)).1 := by
  rcases normalizeAsNumber_eq s radix with ⟨hm, -⟩ | ⟨c, rest, hm, hn⟩
  · rw [hm] at h
    cases h
  · rw [hm] at h ⊢
    rw [toIOfRadix, hn, normalizeDigits_some s (keptSign s) radix h]
    rfl

theorem toIOfRadix_none {s : List YogChar} (h : bare (magnitude s) = none) (radix : ℕ) :
    ∃ fmt arg, toIOfRadix s radix = .error (.valueError fmt arg) := by
  rcases normalizeAsNumber_eq s radix with ⟨hm, fmt, arg, hn⟩ | ⟨c, rest, hm, hn⟩
  · refine ⟨fmt, arg, ?_⟩
    rw [toIOfRadix, hn]
    rfl
  · rw [hm] at h
    obtain ⟨fmt, arg, hd⟩ := normalizeDigits_none s (keptSign s) radix h
    refine ⟨fmt, arg, ?_⟩
    rw [toIOfRadix, hn, hd]
    rfl

end Yog
