import Yog.TableEncoding
import Yog.Proofs.Utf8
import Mathlib.Data.List.Nodup
import Mathlib.Data.List.Perm.Subperm
import Mathlib.Data.List.TakeWhile

/-!
# Round trips through the tables

The codes of either encoding are read apart, so a string is converted both ways exactly when each of
its characters is (`Separates.roundTrip_iff`). A character is when it stands in one of the two tables
that are indexed and its code is decoded to it: the table that is searched is probed behind its end
(`yog2bin_above`), and ASCII is not encoded at all.
-/

namespace Yog

namespace TableEncoding

/-- The codes written are not empty, and each is read back by itself. -/
structure Separates (enc : TableEncoding) : Prop where
  lengths : ∀ c, enc.getYogCharBytes c = (enc.convCharFromYog c).map List.length
  nonempty : ∀ {c b}, enc.convCharFromYog c = .ok b → b ≠ []
  bytes : ∀ {c b} (r : List Byte), enc.convCharFromYog c = .ok b →
    enc.getCharBytes (b ++ r) = b.length
  char : ∀ {c b} (r : List Byte), enc.convCharFromYog c = .ok b →
    enc.convCharToYog (b ++ r) = enc.convCharToYog b

/-- The character `c` is written, and is read back as `d`. -/
def Reads (enc : TableEncoding) (c d : YogChar) : Prop :=
  ∃ b, enc.convCharFromYog c = .ok b ∧ enc.convCharToYog b = .ok d

section Strings

variable {enc : TableEncoding}

theorem convFromYogLoop_cons {c : YogChar} {cs : List YogChar} {b : List Byte} :
    enc.convFromYogLoop (c :: cs) = .ok b ↔ ∃ b₁ b₂, enc.convCharFromYog c = .ok b₁ ∧
      enc.convFromYogLoop cs = .ok b₂ ∧ b = b₁ ++ b₂ := by
  rw [convFromYogLoop]
  rcases enc.convCharFromYog c with e | b₁
  · simp [bind, Except.bind]
  · rcases enc.convFromYogLoop cs with e | b₂
    · simp [bind, Except.bind]
    · simp [bind, Except.bind, eq_comm]

theorem convToYogLoop_succ {n : Nat} {s : List Byte} {ds : List YogChar} :
    enc.convToYogLoop (n + 1) s = .ok ds ↔ ∃ d ds', enc.convCharToYog s = .ok d ∧
      enc.convToYogLoop n (s.drop (enc.getCharBytes s)) = .ok ds' ∧ ds = d :: ds' := by
  rw [convToYogLoop]
  rcases enc.convCharToYog s with e | d
  · simp [bind, Except.bind]
  · rcases enc.convToYogLoop n (s.drop (enc.getCharBytes s)) with e | ds'
    · simp [bind, Except.bind]
    · simp [bind, Except.bind, eq_comm]

theorem exists_convFromYogLoop : ∀ {s : List YogChar},
    (∀ c ∈ s, ∃ b, enc.convCharFromYog c = .ok b) → ∃ b, enc.convFromYogLoop s = .ok b
  | [], _ => ⟨[], rfl⟩
  | c :: cs, hs => by
    obtain ⟨b₁, hb₁⟩ := hs c (by simp)
    obtain ⟨b₂, hb₂⟩ := exists_convFromYogLoop fun d hd => hs d (List.mem_cons_of_mem c hd)
    exact ⟨b₁ ++ b₂, convFromYogLoop_cons.2 ⟨b₁, b₂, hb₁, hb₂, rfl⟩⟩

namespace Separates

variable (h : Separates enc)
include h

theorem computeBytes_eq (s : List YogChar) :
    enc.computeBytes s = (enc.convFromYogLoop s).map List.length := by
  induction s with
  | nil => rfl
  | cons c cs ih =>
    unfold computeBytes convFromYogLoop
    rw [h.lengths, ih]
    rcases enc.convCharFromYog c with e | b
    · rfl
    · rcases enc.convFromYogLoop cs with e | bs
      · rfl
      · simp [bind, Except.bind, Except.map]

/-- The length is computed with the same reads, so it fails where the conversion does. -/
theorem convFromYog_eq (s : List YogChar) : enc.convFromYog s = enc.convFromYogLoop s := by
  unfold convFromYog
  rw [h.computeBytes_eq]
  rcases enc.convFromYogLoop s with e | b <;> rfl

theorem drop_getCharBytes {c : YogChar} {b : List Byte} (hb : enc.convCharFromYog c = .ok b)
    (r : List Byte) : (b ++ r).drop (enc.getCharBytes (b ++ r)) = r := by
  rw [h.bytes r hb, List.drop_left]

theorem countChars_eq : ∀ {s : List YogChar} {b : List Byte} {fuel : Nat},
    enc.convFromYogLoop s = .ok b → b.length ≤ fuel → enc.countChars fuel b = s.length
  | [], b, fuel, hb, _ => by
    cases hb
    rcases fuel with _ | fuel <;> rfl
  | c :: cs, b, fuel, hb, hfuel => by
    obtain ⟨b₁, b₂, hb₁, hb₂, rfl⟩ := convFromYogLoop_cons.1 hb
    have hpos : 0 < b₁.length := List.length_pos_iff.2 (h.nonempty hb₁)
    rw [List.length_append] at hfuel
    rcases fuel with _ | fuel
    · omega
    · have hstep : enc.countChars (fuel + 1) (b₁ ++ b₂) =
          enc.countChars fuel ((b₁ ++ b₂).drop (enc.getCharBytes (b₁ ++ b₂))) + 1 := by
        obtain ⟨x, xs, rfl⟩ := List.exists_cons_of_ne_nil (h.nonempty hb₁)
        rfl
      rw [hstep, h.drop_getCharBytes hb₁, countChars_eq hb₂ (by omega), List.length_cons]

theorem convToYogLoop_iff (f : YogChar → YogChar) : ∀ {s : List YogChar} {b : List Byte},
    enc.convFromYogLoop s = .ok b →
      (enc.convToYogLoop s.length b = .ok (s.map f) ↔ ∀ c ∈ s, enc.Reads c (f c))
  | [], b, hb => by simp [convToYogLoop]
  | c :: cs, b, hb => by
    obtain ⟨b₁, b₂, hb₁, hb₂, rfl⟩ := convFromYogLoop_cons.1 hb
    have hread : enc.Reads c (f c) ↔ enc.convCharToYog b₁ = .ok (f c) := by simp [Reads, hb₁]
    rw [List.length_cons, convToYogLoop_succ, h.char b₂ hb₁, h.drop_getCharBytes hb₁,
      List.forall_mem_cons, hread, ← convToYogLoop_iff f hb₂]
    simp only [List.map_cons, List.cons.injEq]
    constructor
    · rintro ⟨d, ds, hd, hds, rfl, rfl⟩
      exact ⟨hd, hds⟩
    · rintro ⟨hd, hds⟩
      exact ⟨_, _, hd, hds, rfl, rfl⟩

/-- A string is written and read back as `f` of it exactly when each character is. -/
theorem roundTrip_iff (f : YogChar → YogChar) (s : List YogChar) :
    (∃ b, enc.convFromYog s = .ok b ∧ enc.convToYog b = .ok (s.map f)) ↔
      ∀ c ∈ s, enc.Reads c (f c) := by
  rw [h.convFromYog_eq]
  constructor
  · rintro ⟨b, hb, hs⟩
    unfold convToYog at hs
    rwa [h.countChars_eq hb le_rfl, h.convToYogLoop_iff f hb] at hs
  · intro hs
    obtain ⟨b, hb⟩ := exists_convFromYogLoop fun c hc => (hs c hc).imp fun _ => And.left
    refine ⟨b, hb, ?_⟩
    unfold convToYog
    rwa [h.countChars_eq hb le_rfl, h.convToYogLoop_iff f hb]

end Separates

end Strings

/-- The table of the pairs of two lists, read by row and column. -/
theorem getElem?_pairs {α β γ : Type} (f : α → β → γ) (bs : List β) {j : Nat}
    (hj : j < bs.length) : ∀ (as : List α) (i : Nat),
      (as.flatMap fun a => bs.map (f a))[bs.length * i + j]? =
        as[i]?.bind fun a => bs[j]?.map (f a)
  | [], i => by simp
  | a :: as, 0 => by
    rw [List.flatMap_cons, List.getElem?_append_left (by simpa using hj)]
    simp
  | a :: as, i + 1 => by
    have hle : (bs.map (f a)).length ≤ bs.length * (i + 1) + j := by
      rw [List.length_map, Nat.mul_add_one]
      omega
    have hsub : bs.length * (i + 1) + j - (bs.map (f a)).length = bs.length * i + j := by
      rw [List.length_map, Nat.mul_add_one]
      omega
    rw [List.flatMap_cons, List.getElem?_append_right hle, hsub, getElem?_pairs f bs hj as i,
      List.getElem?_cons_succ]

theorem toByte_byte (b : Byte) : toByte b.val = b := Fin.ext (Nat.mod_eq_of_lt b.isLt)

section Tables

variable {Code : List Byte → Prop} {m : Mapping Code}

namespace Mapping

theorem u2entry_mem {u : Nat} {e : Entry} (h : m.u2entry u = some e) :
    e ∈ m.entries ∧ e.first = u := by
  unfold u2entry at h
  refine ⟨List.mem_reverse.1 (List.mem_of_find?_eq_some h), ?_⟩
  simpa using List.find?_some h

/-- No later row has the code of a row. -/
theorem bin2entry_eq {e : Entry} (h : e ∈ m.entries) : m.bin2entry e.bin = some e := by
  unfold bin2entry
  rcases hf : m.entries.reverse.find? fun e' => e'.bin = e.bin with _ | e'
  · rw [List.find?_eq_none] at hf
    have := hf e (List.mem_reverse.2 h)
    simp at this
  · have hbin : e'.bin = e.bin := by simpa using List.find?_some hf
    have hmem : e' ∈ m.entries := List.mem_reverse.1 (List.mem_of_find?_eq_some hf)
    rw [hf, List.inj_on_of_nodup_map m.nodup hmem h hbin]

theorem getAt_writeTable {bins : List (List Byte)} {i : Nat} {e : Entry} (h : e ∈ m.entries)
    (hi : bins[i]? = some e.bin) : getAt (m.writeTable bins) i = .ok e.value := by
  unfold getAt writeTable
  simp [hi, bin2entry_eq h]

/-- What is written for the `i`th code point of a range. -/
theorem getAt_writeYog2binTable {a n i : Nat} (hi : i < n) :
    getAt (m.writeYog2binTable (List.range' a n)) i = .ok ((m.u2entry (a + i)).map Entry.bin) := by
  unfold getAt writeYog2binTable
  rw [List.getElem?_map, List.getElem?_range' hi, one_mul]
  rfl

/-- A row of the table that is searched is one of the file. -/
theorem length_writeYog2binTable2_le {us : List Nat} (hus : us.Nodup) :
    (m.writeYog2binTable2 us).1.length ≤ m.entries.length := by
  have hsub : ((m.writeYog2binTable2 us).1.map Prod.fst).Sublist us := by
    unfold writeYog2binTable2
    induction us with
    | nil => simp
    | cons u us ih =>
      have ih := ih hus.of_cons
      rcases hu : m.u2entry u with _ | e
      · simpa [hu] using ih.cons u
      · simpa [hu] using ih
  have hmem : (m.writeYog2binTable2 us).1.map Prod.fst ⊆ m.entries.map Entry.first := by
    intro u hu
    simp only [writeYog2binTable2, List.mem_map, List.mem_filterMap, Option.map_eq_some_iff] at hu
    obtain ⟨_, ⟨v, -, e, he, rfl⟩, rfl⟩ := hu
    obtain ⟨he, hfirst⟩ := u2entry_mem he
    exact List.mem_map.2 ⟨e, he, hfirst⟩
  have := (List.Nodup.subperm (hus.sublist hsub) hmem).length_le
  simpa using this

end Mapping

theorem iterateUnicode3_length : iterateUnicode3.length = 77456 := by simp [iterateUnicode3]

theorem iterateUnicode3_nodup : iterateUnicode3.Nodup := by
  simp only [iterateUnicode3, List.nodup_append, List.mem_append, List.mem_range'_1]
  refine ⟨⟨List.nodup_range', List.nodup_range', ?_⟩, List.nodup_range', ?_⟩ <;> omega

theorem binarySearch_above {table : List (Nat × List Byte)} {c fuel min max : Nat}
    (h : min ≤ max) (hout : table.length ≤ (min + max) % 2 ^ 64 / 2) :
    binarySearch table c (fuel + 1) min max = .error .outOfRange := by
  have hget : getAt table ((min + max) % 2 ^ 64 / 2) = .error .outOfRange := by
    unfold getAt
    rw [List.getElem?_eq_none hout]
  rw [binarySearch, if_neg (by omega)]
  show (getAt table ((min + max) % 2 ^ 64 / 2) >>= _) = _
  rw [hget]
  rfl

/-- The last row the search is told of is one for each code point, so that the first row it looks at
lies behind the table. -/
theorem yog2bin_above {c : YogChar} (h : 0x1e3e ≤ c.val) (h' : c.val ≤ 0x2a6b2) :
    yog2bin m c = .error .outOfRange := by
  unfold yog2bin
  rw [if_neg (by omega), if_neg (by omega), if_neg (by omega)]
  have hlength : (m.writeYog2binTable2 iterateUnicode3).1.length ≤ 11549 :=
    (Mapping.length_writeYog2binTable2_le iterateUnicode3_nodup).trans m.few
  have hnumber : (m.writeYog2binTable2 iterateUnicode3).2 = 77456 := iterateUnicode3_length
  simp only [hnumber]
  have hout : (m.writeYog2binTable2 iterateUnicode3).1.length ≤ (0 + (77456 - 1)) % 2 ^ 64 / 2 := by
    omega
  exact binarySearch_above (Nat.zero_le _) hout

/-- The two ranges whose tables are indexed with the code point. -/
def Indexed (c : YogChar) : Prop :=
  0xa0 ≤ c.val ∧ c.val ≤ 0x1ff ∨ 0x250 ≤ c.val ∧ c.val ≤ 0x451

theorem yog2bin_indexed {c : YogChar} (h : Indexed c) :
    yog2bin m c = .ok ((m.u2entry c.val).map Entry.bin) := by
  unfold yog2bin
  rcases h with h | h
  · rw [if_pos h, iterateUnicode1, Mapping.getAt_writeYog2binTable (by omega)]
    rw [Nat.add_sub_cancel' h.1]
  · rw [if_neg (by omega), if_pos h, iterateUnicode2, Mapping.getAt_writeYog2binTable (by omega)]
    rw [Nat.add_sub_cancel' h.1]

/-- Below the table that is searched and behind it, the answer is given at once. -/
theorem yog2bin_question {c : YogChar} (h : ¬ Indexed c) (h' : c.val < 0x1e3e ∨ 0x2a6b2 < c.val) :
    yog2bin m c = .ok (some [toByte 0x3f]) := by
  unfold Indexed at h
  unfold yog2bin
  rw [if_neg (by omega), if_neg (by omega), if_pos h']

/-- Every character is in one of the ranges. -/
theorem range_cases (c : YogChar) : Indexed c ∨ (¬ Indexed c ∧ (c.val < 0x1e3e ∨ 0x2a6b2 < c.val)) ∨
    (0x1e3e ≤ c.val ∧ c.val ≤ 0x2a6b2) := by
  unfold Indexed
  omega

/-- The table has the character: a script wrote a row for it. -/
def Mapping.Has (m : Mapping Code) (c : YogChar) : Prop :=
  (c.val ∈ iterateUnicode1 ∨ c.val ∈ iterateUnicode2 ∨ c.val ∈ iterateUnicode3) ∧
    (m.u2entry c.val).isSome

instance (m : Mapping Code) (c : YogChar) : Decidable (m.Has c) :=
  inferInstanceAs (Decidable (_ ∧ _))

/-- What is left of a character once it has been encoded and decoded. -/
def Mapping.expected (m : Mapping Code) (c : YogChar) : YogChar :=
  if isascii c.val ∨ m.Has c then c else toYogChar 0x3f

/-- The string comes back with `?` for what the table does not have; ASCII is encoded as it is, and
what the table does not have as `?`. -/
structure Converts (m : Mapping Code) (enc : TableEncoding) (s : List YogChar) : Prop where
  roundTrip : ∃ b, enc.convFromYog s = .ok b ∧ enc.convToYog b = .ok (s.map m.expected)
  ascii : ∀ c ∈ s, isascii c.val → enc.convCharFromYog c = .ok [toByte c.val]
  replaced : ∀ c ∈ s, ¬ isascii c.val → ¬ m.Has c → enc.convCharFromYog c = .ok [toByte 0x3f]

/-- No script wrote a row for these, and the code answers `?` by itself. -/
def Unlisted (c : YogChar) : Prop :=
  0x80 ≤ c.val ∧ c.val < 0xa0 ∨ 0x1ff < c.val ∧ c.val < 0x250 ∨
    0x451 < c.val ∧ c.val < 0x1e3e ∨ 0x2a6b2 < c.val

/-- The characters the two conversions do as they should: `?`, those no table is for, and those of
an indexed table whose row is the code point alone and is found under its code. -/
def Kept (Found : List Byte → Prop) (m : Mapping Code) (c : YogChar) : Prop :=
  c = toYogChar 0x3f ∨ Unlisted c ∨
    Indexed c ∧ ∃ e, m.u2entry c.val = some e ∧ e.value = c ∧ Found e.bin

theorem Mapping.has_of_indexed {c : YogChar} (h : Indexed c) :
    m.Has c ↔ (m.u2entry c.val).isSome := by
  unfold Indexed at h
  simp only [Mapping.Has, iterateUnicode1, iterateUnicode2, List.mem_range'_1]
  constructor
  · exact And.right
  · exact fun h' => ⟨by omega, h'⟩

theorem Mapping.not_has {c : YogChar} (h : ¬ Indexed c)
    (h' : c.val < 0x1e3e ∨ 0x2a6b2 < c.val) : ¬ m.Has c := by
  unfold Indexed at h
  simp only [Mapping.Has, iterateUnicode1, iterateUnicode2, iterateUnicode3, List.mem_append,
    List.mem_range'_1, not_and]
  omega

/-- An encoding that writes from the tables of `m`: its codes are read apart, a byte of ASCII is
itself, and the code of a row is read back when it is one of `Found`. -/
structure Decodes (m : Mapping Code) (enc : TableEncoding) (Found : List Byte → Prop) : Prop where
  convCharFromYog : enc.convCharFromYog = tableConvCharFromYog m
  getYogCharBytes : enc.getYogCharBytes = tableGetYogCharBytes m
  question : Code [toByte 0x3f]
  nonzero : ∀ {b}, Code b → b ≠ [] ∧ ∀ x ∈ b, x.val ≠ 0
  bytes : ∀ {b} (r : List Byte), Code b → enc.getCharBytes (b ++ r) = b.length
  char : ∀ {b} (r : List Byte), Code b → enc.convCharToYog (b ++ r) = enc.convCharToYog b
  ascii : ∀ {b : Byte}, b.val < 0x80 → enc.convCharToYog [b] = .ok (toYogChar b.val)
  row : ∀ {e : Entry} {c : YogChar}, e ∈ m.entries → Code e.bin → 0xa0 ≤ c.val →
    (enc.convCharToYog e.bin = .ok c ↔ e.value = c ∧ Found e.bin)

namespace Decodes

variable {enc : TableEncoding} {Found : List Byte → Prop} (h : Decodes m enc Found)
include h

theorem cString_eq {b : List Byte} (hb : Code b) : cString (some b) = .ok b := by
  have htake : b.takeWhile (fun x => x.val ≠ 0) = b :=
    List.takeWhile_eq_self_iff.2 (by simpa using (h.nonzero hb).2)
  exact congrArg Except.ok htake

theorem conv_row {c : YogChar} {e : Entry} (hc : Indexed c) (he : m.u2entry c.val = some e) :
    enc.convCharFromYog c = .ok e.bin ∧ e ∈ m.entries ∧ Code e.bin := by
  obtain ⟨hmem, hfirst⟩ := Mapping.u2entry_mem he
  have hcode : Code e.bin := m.coded e hmem (by unfold Indexed at hc; omega)
  refine ⟨?_, hmem, hcode⟩
  rw [h.convCharFromYog, tableConvCharFromYog, yog2bin_indexed hc, he]
  exact h.cString_eq hcode

theorem conv_no_row {c : YogChar} (hc : Indexed c) (he : m.u2entry c.val = none) :
    enc.convCharFromYog c = .error .nullPointer := by
  rw [h.convCharFromYog, tableConvCharFromYog, yog2bin_indexed hc, he]
  rfl

theorem conv_question {c : YogChar} (hc : ¬ Indexed c) (hc' : c.val < 0x1e3e ∨ 0x2a6b2 < c.val) :
    enc.convCharFromYog c = .ok [toByte 0x3f] := by
  rw [h.convCharFromYog, tableConvCharFromYog, yog2bin_question hc hc']
  exact h.cString_eq h.question

theorem conv_above {c : YogChar} (hc : 0x1e3e ≤ c.val) (hc' : c.val ≤ 0x2a6b2) :
    enc.convCharFromYog c = .error .outOfRange := by
  rw [h.convCharFromYog, tableConvCharFromYog, yog2bin_above hc hc']
  rfl

/-- What is written for a character is a code. -/
theorem convCharFromYog_code {c : YogChar} {b : List Byte} (hb : enc.convCharFromYog c = .ok b) :
    Code b := by
  rcases range_cases c with hc | ⟨hc, hc'⟩ | ⟨hc, hc'⟩
  · rcases he : m.u2entry c.val with _ | e
    · simp [h.conv_no_row hc he] at hb
    · obtain ⟨hrow, -, hcode⟩ := h.conv_row hc he
      rw [hrow] at hb
      cases hb
      exact hcode
  · rw [h.conv_question hc hc'] at hb
    cases hb
    exact h.question
  · simp [h.conv_above hc hc'] at hb

theorem separates : Separates enc where
  lengths c := by
    rw [h.getYogCharBytes, h.convCharFromYog]
    unfold tableGetYogCharBytes tableConvCharFromYog
    rcases yog2bin m c with e | _ | b <;> rfl
  nonempty hb := (h.nonzero (h.convCharFromYog_code hb)).1
  bytes r hb := h.bytes r (h.convCharFromYog_code hb)
  char r hb := h.char r (h.convCharFromYog_code hb)

theorem reads_row {c : YogChar} {e : Entry} (hc : Indexed c) (he : m.u2entry c.val = some e) :
    enc.Reads c (m.expected c) ↔ e.value = c ∧ Found e.bin := by
  obtain ⟨hrow, hmem, hcode⟩ := h.conv_row hc he
  have hexpected : m.expected c = c := by
    unfold Mapping.expected
    rw [if_pos (.inr ((Mapping.has_of_indexed hc).2 (by rw [he]; rfl)))]
  have hbound : 0xa0 ≤ c.val := by unfold Indexed at hc; omega
  rw [hexpected, ← h.row hmem hcode hbound]
  simp [Reads, hrow]

theorem reads_question {c : YogChar} (hc : ¬ Indexed c) (hc' : c.val < 0x1e3e ∨ 0x2a6b2 < c.val) :
    enc.Reads c (m.expected c) ↔ m.expected c = toYogChar 0x3f := by
  have hread : enc.convCharToYog [toByte 0x3f] = .ok (toYogChar 0x3f) := h.ascii (by decide)
  simp [Reads, h.conv_question hc hc', hread, eq_comm]

/-- One character of `Converts`. -/
theorem kept_iff (c : YogChar) : Kept Found m c ↔ enc.Reads c (m.expected c) ∧
    (isascii c.val → enc.convCharFromYog c = .ok [toByte c.val]) ∧
    (¬ isascii c.val → ¬ m.Has c → enc.convCharFromYog c = .ok [toByte 0x3f]) := by
  have hmark : c = toYogChar 0x3f ↔ c.val = 0x3f := Fin.ext_iff
  rcases range_cases c with hc | ⟨hc, hc'⟩ | ⟨hc, hc'⟩
  · have hnot : ¬ isascii c.val := by unfold Indexed at hc; unfold isascii; omega
    have hunlisted : ¬ Unlisted c := by unfold Indexed at hc; unfold Unlisted; omega
    have hne : ¬ c = toYogChar 0x3f := by rw [hmark]; unfold Indexed at hc; omega
    rcases he : m.u2entry c.val with _ | e
    · have hnone : ¬ enc.Reads c (m.expected c) := by simp [Reads, h.conv_no_row hc he]
      simp [Kept, hne, hunlisted, he, hnone]
    · have hhas : m.Has c := (Mapping.has_of_indexed hc).2 (by rw [he]; rfl)
      rw [h.reads_row hc he]
      simp [Kept, hne, hunlisted, he, hc, hnot, hhas]
  · have hhas : ¬ m.Has c := Mapping.not_has hc hc'
    rw [h.reads_question hc hc', h.conv_question hc hc']
    by_cases hascii : isascii c.val
    · have hunlisted : ¬ Unlisted c := by unfold isascii at hascii; unfold Unlisted; omega
      have hbyte : toByte 0x3f = toByte c.val ↔ c.val = 0x3f := by
        rw [Fin.ext_iff]
        simp only [toByte, Fin.val_ofNat]
        unfold isascii at hascii
        omega
      simp [Kept, hc, hunlisted, Mapping.expected, hascii, hbyte, hmark]
    · have hunlisted : Unlisted c := by
        unfold isascii at hascii
        unfold Indexed at hc
        unfold Unlisted
        omega
      simp [Kept, hunlisted, Mapping.expected, hascii, hhas]
  · have hne : ¬ c = toYogChar 0x3f := by rw [hmark]; omega
    have hunlisted : ¬ Unlisted c := by unfold Unlisted; omega
    have hindexed : ¬ Indexed c := by unfold Indexed; omega
    have hnone : ¬ enc.Reads c (m.expected c) := by simp [Reads, h.conv_above hc hc']
    simp [Kept, hne, hunlisted, hindexed, hnone]

theorem converts_iff_kept (s : List YogChar) : Converts m enc s ↔ ∀ c ∈ s, Kept Found m c := by
  simp only [h.kept_iff]
  constructor
  · intro hs c hc
    exact ⟨(h.separates.roundTrip_iff m.expected s).1 hs.roundTrip c hc, hs.ascii c hc,
      hs.replaced c hc⟩
  · intro hs
    exact ⟨(h.separates.roundTrip_iff m.expected s).2 fun c hc => (hs c hc).1,
      fun c hc => (hs c hc).2.1, fun c hc => (hs c hc).2.2⟩

end Decodes

end Tables

namespace ShiftJis

/-- The codes that are decoded from a table: neither ASCII, nor behind a lead byte of the second
range. -/
inductive Found : List Byte → Prop
  | hankaku {b : Byte} : 0xa1 ≤ b.val → b.val ≤ 0xdf → Found [b]
  | zenkaku {b b' : Byte} : 0x81 ≤ b.val → b.val ≤ 0x9f → Trail b' → Found [b, b']

theorem iterateLowerByte_length : iterateLowerByte.length = 188 := by simp [iterateLowerByte]

theorem iterateLowerByte_column {b : Byte} (h : Trail b) :
    ∃ column, columnOf b.val = some column ∧ column < 188 ∧
      iterateLowerByte[column]? = some b.val := by
  unfold Trail at h
  unfold columnOf iterateLowerByte
  rcases h with h | h
  · rw [if_pos h]
    refine ⟨_, rfl, by omega, ?_⟩
    rw [List.getElem?_append_left (by rw [List.length_range']; omega),
      List.getElem?_range' (by omega)]
    exact congrArg some (by omega)
  · rw [if_neg (by omega), if_pos h]
    refine ⟨_, rfl, by omega, ?_⟩
    rw [List.getElem?_append_right (by rw [List.length_range']; omega), List.length_range',
      List.getElem?_range' (by omega)]
    exact congrArg some (by omega)

theorem iterateHankaku_getElem? {b : Byte} (h : 0xa1 ≤ b.val) (h' : b.val ≤ 0xdf) :
    iterateHankaku[b.val - 0xa1]? = some [b] := by
  unfold iterateHankaku
  rw [List.getElem?_map, List.getElem?_range' (by omega), Option.map_some, one_mul,
    Nat.add_sub_cancel' h, toByte_byte]

theorem iterateZenkaku_getElem? {b b' : Byte} {column : Nat} (h : 0x81 ≤ b.val) (h' : b.val ≤ 0x9f)
    (hcolumn : column < 188) (hb' : iterateLowerByte[column]? = some b'.val) :
    iterateZenkaku[188 * (b.val - 0x81) + column]? = some [b, b'] := by
  have hb : iterateHigherByte[b.val - 0x81]? = some b.val := by
    unfold iterateHigherByte
    rw [List.getElem?_append_left (by rw [List.length_range']; omega),
      List.getElem?_range' (by omega)]
    exact congrArg some (by omega)
  unfold iterateZenkaku
  rw [← iterateLowerByte_length] at hcolumn ⊢
  rw [getElem?_pairs _ _ hcolumn, hb, hb', Option.bind_some, Option.map_some, toByte_byte,
    toByte_byte]

theorem iterateZenkaku_length : iterateZenkaku.length = 8836 := by
  simp [iterateZenkaku, iterateHigherByte, iterateLowerByte]

section Decoder

variable {m : Mapping Code}

theorem convCharToYog_ascii {b : Byte} (r : List Byte) (h : b.val < 0x80) :
    convCharToYog m (b :: r) = .ok (toYogChar b.val) := if_pos h

theorem convCharToYog_single {b : Byte} (r : List Byte) (h : 0xa1 ≤ b.val) (h' : b.val ≤ 0xdf) :
    convCharToYog m (b :: r) = getAt (m.writeTable iterateHankaku) (b.val - 0xa1) := by
  unfold convCharToYog
  rw [byteAt_zero, if_neg (by unfold isascii; omega), if_pos ⟨h, h'⟩]

theorem convCharToYog_hankaku {e : Entry} {b : Byte} (he : e ∈ m.entries) (hbin : e.bin = [b])
    (h : 0xa1 ≤ b.val) (h' : b.val ≤ 0xdf) : convCharToYog m e.bin = .ok e.value := by
  rw [hbin, convCharToYog_single [] h h']
  exact Mapping.getAt_writeTable he (by rw [iterateHankaku_getElem? h h', hbin])

theorem convCharToYog_zenkaku {e : Entry} {b b' : Byte} (he : e ∈ m.entries)
    (hbin : e.bin = [b, b']) (h : 0x81 ≤ b.val) (h' : b.val ≤ 0x9f) (hb' : Trail b') :
    convCharToYog m e.bin = .ok e.value := by
  obtain ⟨column, hcolumn, hlt, hget⟩ := iterateLowerByte_column hb'
  have hrow : rowOf b.val = some (b.val - 0x81) := if_pos ⟨h, h'⟩
  rw [hbin]
  unfold convCharToYog
  rw [byteAt_succ, byteAt_zero, byteAt_zero, if_neg (by unfold isascii; omega),
    if_neg (by omega), hrow, hcolumn]
  exact Mapping.getAt_writeTable he (by rw [iterateZenkaku_getElem? h h' hlt hget, hbin])

/-- A lead byte of the second range is counted as if it were 32 rows further down. -/
theorem convCharToYog_second {b b' : Byte} (h : 0xe0 ≤ b.val) (h' : b.val ≤ 0xfc)
    (hb' : Trail b') : convCharToYog m [b, b'] = .error .outOfRange := by
  obtain ⟨column, hcolumn, hlt, -⟩ := iterateLowerByte_column hb'
  have hrow : rowOf b.val = some (b.val - 0xc0 + 0x9f - 0x81 + 1) := by
    unfold rowOf
    rw [if_neg (by omega), if_pos ⟨h, h'⟩]
  have hlength : (m.writeTable iterateZenkaku).length = 8836 := by
    unfold Mapping.writeTable
    rw [List.length_map, iterateZenkaku_length]
  unfold convCharToYog
  rw [byteAt_succ, byteAt_zero, byteAt_zero, if_neg (by unfold isascii; omega),
    if_neg (by omega), hrow, hcolumn]
  simp only [getAt]
  rw [List.getElem?_eq_none (by omega)]

theorem getCharBytes_code {b : List Byte} (r : List Byte) (hb : Code b) :
    getCharBytes (b ++ r) = b.length := by
  unfold getCharBytes
  rcases hb with ⟨-, h⟩ | ⟨h, h'⟩ | ⟨h, -⟩
  · rw [List.cons_append, byteAt_zero, if_neg (by omega), if_neg (by omega)]
    rfl
  · rw [List.cons_append, byteAt_zero, if_neg (by omega), if_neg (by omega)]
    rfl
  · rw [List.cons_append, byteAt_zero]
    rcases h with h | h
    · rw [if_pos h]
      rfl
    · rw [if_neg (by omega), if_pos h]
      rfl

theorem convCharToYog_append {b : List Byte} (r : List Byte) (hb : Code b) :
    convCharToYog m (b ++ r) = convCharToYog m b := by
  rcases hb with ⟨-, h⟩ | ⟨h, h'⟩ | ⟨-, -⟩
  · rw [List.cons_append, convCharToYog_ascii _ h, convCharToYog_ascii _ h]
  · rw [List.cons_append, convCharToYog_single _ h h', convCharToYog_single _ h h']
  · rfl

theorem convCharToYog_row {e : Entry} {c : YogChar} (he : e ∈ m.entries) (hcode : Code e.bin)
    (hc : 0xa0 ≤ c.val) : convCharToYog m e.bin = .ok c ↔ e.value = c ∧ Found e.bin := by
  rcases hbin : e.bin with _ | ⟨b, _ | ⟨b', bs⟩⟩
  · rw [hbin] at hcode
    cases hcode
  · by_cases h : b.val < 0x80
    · have hread : convCharToYog m [b] = .ok (toYogChar b.val) := convCharToYog_ascii [] h
      have hne : toYogChar b.val ≠ c := by
        intro heq
        have := congrArg Fin.val heq
        simp only [toYogChar, Fin.val_ofNat] at this
        omega
      have hnot : ¬ Found [b] := by
        rintro ⟨_, -⟩
        omega
      simp [hread, hne, hnot]
    · have hfound : 0xa1 ≤ b.val ∧ b.val ≤ 0xdf := by
        rw [hbin] at hcode
        cases hcode <;> omega
      rw [← hbin, convCharToYog_hankaku he hbin hfound.1 hfound.2, hbin]
      simp [Found.hankaku hfound.1 hfound.2]
  · rw [hbin] at hcode
    rcases hcode with _ | _ | ⟨h, h'⟩
    rcases h with h | h
    · rw [← hbin, convCharToYog_zenkaku he hbin h.1 h.2 h', hbin]
      simp [Found.zenkaku h.1 h.2 h']
    · have hnot : ¬ Found [b, b'] := by
        intro hfound
        cases hfound
        omega
      rw [convCharToYog_second h.1 h.2 h']
      simp [hnot]

theorem decodes (m : Mapping Code) : Decodes m (shiftJis m) Found where
  convCharFromYog := rfl
  getYogCharBytes := rfl
  question := .ascii (by decide) (by decide)
  nonzero hb := by
    rcases hb with ⟨h, -⟩ | ⟨h, -⟩ | ⟨h, h'⟩
    · simp
      omega
    · simp
      omega
    · unfold Trail at h'
      simp
      omega
  bytes := getCharBytes_code
  char := convCharToYog_append
  ascii h := convCharToYog_ascii [] h
  row := convCharToYog_row

end Decoder

end ShiftJis

namespace EucJp

/-- The codes that are decoded from a table: those of two bytes. -/
inductive Found : List Byte → Prop
  | hankaku {b b' : Byte} : b.val = 0x8e → Trail b' → Found [b, b']
  | zenkaku {b b' : Byte} : Trail b → Trail b' → Found [b, b']

theorem iterateEucJpRange_length : iterateEucJpRange.length = 94 := by simp [iterateEucJpRange]

theorem iterateEucJpRange_getElem? {b : Byte} (h : Trail b) :
    iterateEucJpRange[b.val - 0xa1]? = some b.val := by
  unfold Trail at h
  unfold iterateEucJpRange
  rw [List.getElem?_range' (by omega), one_mul, Nat.add_sub_cancel' h.1]

theorem iterateHankaku_getElem? {b b' : Byte} (h : b.val = 0x8e) (h' : Trail b') :
    iterateHankaku[b'.val - 0xa1]? = some [b, b'] := by
  unfold iterateHankaku
  rw [List.getElem?_map, iterateEucJpRange_getElem? h', Option.map_some, toByte_byte, ← h,
    toByte_byte]

theorem iterateZenkaku_getElem? {b b' : Byte} (h : Trail b) (h' : Trail b') :
    iterateZenkaku[94 * (b.val - 0xa1) + (b'.val - 0xa1)]? = some [b, b'] := by
  have hcolumn : b'.val - 0xa1 < iterateEucJpRange.length := by
    unfold Trail at h'
    rw [iterateEucJpRange_length]
    omega
  unfold iterateZenkaku
  rw [← iterateEucJpRange_length, getElem?_pairs _ _ hcolumn, iterateEucJpRange_getElem? h,
    iterateEucJpRange_getElem? h', Option.bind_some, Option.map_some, toByte_byte, toByte_byte]

theorem iterate3bytes_length : iterate3bytes.length = 8836 := by
  simp [iterate3bytes, iterateEucJpRange]

theorem fromA1_asChar {b : Byte} (h : Trail b) :
    fromA1 (asChar b.val) = b.val + (2 ^ 64 - 417) := by
  unfold Trail at h
  unfold fromA1 asChar
  rw [if_neg (by omega)]
  omega

/-- The distance of a signed byte is negative, so that the index wraps around. -/
theorem le_indexOf_asChar {b b' : Byte} (h : Trail b) (h' : Trail b') :
    8836 ≤ indexOf (fromA1 (asChar b.val)) (fromA1 (asChar b'.val)) := by
  rw [fromA1_asChar h, fromA1_asChar h']
  unfold Trail at h h'
  have hwrap : (0xfe - 0xa1 + 1) * (b.val + (2 ^ 64 - 417)) + (b'.val + (2 ^ 64 - 417)) =
      (94 * b.val + b'.val + (2 ^ 64 - 39615)) + 94 * 2 ^ 64 := by omega
  rw [indexOf, hwrap, Nat.add_mul_mod_self_right, Nat.mod_eq_of_lt (by omega)]
  omega

section Decoder

variable {m : Mapping Code}

theorem convCharToYog_ascii {b : Byte} (r : List Byte) (h : b.val < 0x80) :
    convCharToYog m (b :: r) = .ok (toYogChar b.val) := if_pos h

theorem convCharToYog_hankaku_eq {b b' : Byte} (r : List Byte) (h : b.val = 0x8e) :
    convCharToYog m (b :: b' :: r) = if b'.val < 0xa1 then .error .outOfRange
      else getAt (m.writeTable iterateHankaku) (b'.val - 0xa1) := by
  unfold convCharToYog
  rw [byteAt_succ, byteAt_zero, byteAt_zero, if_neg (by unfold isascii; omega), if_pos h]

theorem convCharToYog_zenkaku_eq {b b' : Byte} (r : List Byte) (h : Trail b) :
    convCharToYog m (b :: b' :: r) =
      getAt (m.writeTable iterateZenkaku) (indexOf (fromA1 b.val) (fromA1 b'.val)) := by
  have hle : 0xa1 ≤ b.val := h.1
  unfold convCharToYog
  rw [byteAt_succ, byteAt_zero, byteAt_zero, if_neg (by unfold isascii; omega),
    if_neg (by omega), if_neg (by omega)]

theorem convCharToYog_hankaku {e : Entry} {b b' : Byte} (he : e ∈ m.entries)
    (hbin : e.bin = [b, b']) (h : b.val = 0x8e) (h' : Trail b') :
    convCharToYog m e.bin = .ok e.value := by
  have hle : 0xa1 ≤ b'.val := h'.1
  rw [hbin, convCharToYog_hankaku_eq [] h, if_neg (by omega)]
  exact Mapping.getAt_writeTable he (by rw [iterateHankaku_getElem? h h', hbin])

theorem convCharToYog_zenkaku {e : Entry} {b b' : Byte} (he : e ∈ m.entries)
    (hbin : e.bin = [b, b']) (h : Trail b) (h' : Trail b') :
    convCharToYog m e.bin = .ok e.value := by
  have hindex : indexOf (fromA1 b.val) (fromA1 b'.val) =
      94 * (b.val - 0xa1) + (b'.val - 0xa1) := by
    unfold Trail at h h'
    unfold indexOf fromA1
    omega
  rw [hbin, convCharToYog_zenkaku_eq [] h, hindex]
  exact Mapping.getAt_writeTable he (by rw [iterateZenkaku_getElem? h h', hbin])

theorem convCharToYog_threeBytes {b b' b'' : Byte} (h : b.val = 0x8f) (h' : Trail b')
    (h'' : Trail b'') : convCharToYog m [b, b', b''] = .error .outOfRange := by
  have hlength : (m.writeTable iterate3bytes).length = 8836 := by
    unfold Mapping.writeTable
    rw [List.length_map, iterate3bytes_length]
  unfold convCharToYog
  rw [byteAt_succ, byteAt_succ, byteAt_succ, byteAt_zero, byteAt_zero, byteAt_zero,
    if_neg (by unfold isascii; omega), if_neg (by omega), if_pos h, getAt,
    List.getElem?_eq_none (by rw [hlength]; exact le_indexOf_asChar h' h'')]

theorem getCharBytes_code {b : List Byte} (r : List Byte) (hb : Code b) :
    getCharBytes (b ++ r) = b.length := by
  unfold getCharBytes
  rcases hb with ⟨-, h⟩ | ⟨h, -⟩ | ⟨h, -⟩ | ⟨h, -, -⟩
  · rw [List.cons_append, byteAt_zero, if_neg (by omega), if_neg (by omega)]
    rfl
  · rw [List.cons_append, byteAt_zero, if_pos (.inr h)]
    rfl
  · rw [List.cons_append, byteAt_zero, if_pos (.inl h)]
    rfl
  · rw [List.cons_append, byteAt_zero, if_neg (by omega), if_pos h]
    rfl

theorem convCharToYog_append {b : List Byte} (r : List Byte) (hb : Code b) :
    convCharToYog m (b ++ r) = convCharToYog m b := by
  rcases hb with ⟨-, h⟩ | @⟨x, x', h, -⟩ | @⟨x, x', h, -⟩ | ⟨-, -, -⟩
  · rw [List.cons_append, convCharToYog_ascii _ h, convCharToYog_ascii _ h]
  · rw [List.cons_append, List.cons_append, List.nil_append, convCharToYog_hankaku_eq _ h,
      convCharToYog_hankaku_eq _ h]
  · rw [List.cons_append, List.cons_append, List.nil_append, convCharToYog_zenkaku_eq _ h,
      convCharToYog_zenkaku_eq _ h]
  · rfl

theorem convCharToYog_row {e : Entry} {c : YogChar} (he : e ∈ m.entries) (hcode : Code e.bin)
    (hc : 0xa0 ≤ c.val) : convCharToYog m e.bin = .ok c ↔ e.value = c ∧ Found e.bin := by
  rcases hbin : e.bin with _ | ⟨b, _ | ⟨b', _ | ⟨b'', bs⟩⟩⟩
  · rw [hbin] at hcode
    cases hcode
  · have h : b.val < 0x80 := by
      rw [hbin] at hcode
      cases hcode
      assumption
    have hne : toYogChar b.val ≠ c := by
      intro heq
      have := congrArg Fin.val heq
      simp only [toYogChar, Fin.val_ofNat] at this
      omega
    have hnot : ¬ Found [b] := nofun
    rw [convCharToYog_ascii [] h]
    simp [hne, hnot]
  · have hfound : Found [b, b'] := by
      rw [hbin] at hcode
      rcases hcode with _ | ⟨h, h'⟩ | ⟨h, h'⟩
      · exact .hankaku h h'
      · exact .zenkaku h h'
    have hread : convCharToYog m e.bin = .ok e.value := by
      rcases hfound with ⟨h, h'⟩ | ⟨h, h'⟩
      · exact convCharToYog_hankaku he hbin h h'
      · exact convCharToYog_zenkaku he hbin h h'
    rw [← hbin, hread, hbin]
    simp [hfound]
  · have hnot : ¬ Found (b :: b' :: b'' :: bs) := nofun
    rw [hbin] at hcode
    rcases hcode with _ | _ | _ | ⟨h, h', h''⟩
    rw [convCharToYog_threeBytes h h' h'']
    simp [hnot]

theorem decodes (m : Mapping Code) : Decodes m (eucJp m) Found where
  convCharFromYog := rfl
  getYogCharBytes := rfl
  question := .ascii (by decide) (by decide)
  nonzero hb := by
    rcases hb with ⟨h, -⟩ | ⟨h, h'⟩ | ⟨h, h'⟩ | ⟨h, h', h''⟩
    · simp
      omega
    · unfold Trail at h'
      simp
      omega
    · unfold Trail at h h'
      simp
      omega
    · unfold Trail at h' h''
      simp
      omega
  bytes := getCharBytes_code
  char := convCharToYog_append
  ascii h := convCharToYog_ascii [] h
  row := convCharToYog_row

end Decoder

end EucJp

/-- A string survives either encoding exactly when each of its characters is kept. -/
theorem converts_iff (m : Mapping ShiftJis.Code) (m' : Mapping EucJp.Code) (s : List YogChar) :
    (Converts m (shiftJis m) s ↔ ∀ c ∈ s, Kept ShiftJis.Found m c) ∧
      (Converts m' (eucJp m') s ↔ ∀ c ∈ s, Kept EucJp.Found m' c) :=
  ⟨(ShiftJis.decodes m).converts_iff_kept s, (EucJp.decodes m').converts_iff_kept s⟩

/-- The row of U+00A7, `SECTION SIGN`. -/
def sectionSign : Mapping ShiftJis.Code where
  entries := [⟨[toByte 0x81, toByte 0x98], [0xa7]⟩]
  nodup := by decide
  coded := by
    intro e he _
    rw [List.mem_singleton] at he
    rw [he]
    exact .zenkaku (.inl (by decide)) (.inr (by decide))
  few := by decide

/-- `A` is encoded as `?`. -/
theorem not_converts_A : ¬ Converts sectionSign (shiftJis sectionSign) [toYogChar 0x41] := by
  intro h
  have hA : (shiftJis sectionSign).convCharFromYog (toYogChar 0x41) = .ok [toByte 0x3f] := rfl
  have := h.ascii _ (List.mem_singleton.2 rfl) (by decide)
  rw [hA, Except.ok.injEq] at this
  exact absurd this (by decide)

end TableEncoding

end Yog
