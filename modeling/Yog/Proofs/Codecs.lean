import Yog.Codec
import Yog.Proofs.TableRoundTrip

/-!
# Buffers that are decoded and filled

Counting stays inside of any buffer and ends, but decoding reads the bytes that the first one of a
character asks for, so it stays inside of a buffer whose characters are all there (`Whole`). A
binary is filled exactly where every character can be written at all: the two passes ask the same
tables.
-/

namespace Yog

namespace Codec

/-- What the functions of an encoding ask of the bytes in front of them: by how many they go on, and
how many they read. -/
structure Asks (codec : Codec) (width needs : List Byte → Nat) : Prop where
  getCharBytes : ∀ {s}, s ≠ [] → codec.getCharBytes s = some (width s)
  width_pos : ∀ s, 0 < width s
  char : ∀ {s}, s ≠ [] → ((codec.convCharToYog s).isSome ↔ needs s ≤ s.length)

/-- Every character of the buffer has the bytes that are read for it. -/
inductive Whole (width needs : List Byte → Nat) : List Byte → Prop
  | nil : Whole width needs []
  | cons {s : List Byte} : s ≠ [] → needs s ≤ s.length → Whole width needs (s.drop (width s)) →
    Whole width needs s

/-- Where every character takes one byte. -/
theorem whole_of_one : ∀ s : List Byte, Whole (fun _ => 1) (fun _ => 1) s
  | [] => .nil
  | b :: s => .cons (List.cons_ne_nil b s) (Nat.le_add_left 1 s.length) (whole_of_one s)

/-- Neither pass reads behind the buffer, both end, and the second one is at its end with as many
characters as the first one has counted. -/
def DecodesWithin (codec : Codec) (s : List Byte) : Prop :=
  ∃ n cs, codec.countChars s.length s = some n ∧ codec.convToYogLoop n s = some (cs, []) ∧
    cs.length = n

section Passes

variable {codec : Codec} {width needs : List Byte → Nat}

theorem countChars_cons {fuel : Nat} {s : List Byte} (hs : s ≠ []) :
    codec.countChars (fuel + 1) s = (do
      let bytes ← codec.getCharBytes s
      let n ← codec.countChars fuel (s.drop bytes)
      return n + 1) := by
  obtain ⟨b, s, rfl⟩ := List.exists_cons_of_ne_nil hs
  rfl

namespace Asks

variable (h : Asks codec width needs)

include h

theorem countChars_succ {fuel : Nat} {s : List Byte} (hs : s ≠ []) :
    codec.countChars (fuel + 1) s =
      (codec.countChars fuel (s.drop (width s))).map (· + 1) := by
  rw [countChars_cons hs, h.getCharBytes hs, Option.bind_eq_bind, Option.bind_some]
  rcases codec.countChars fuel (s.drop (width s)) with _ | n <;> rfl

theorem convToYogLoop_succ {n : Nat} {s rest : List Byte} {cs : List (Except Fault YogChar)}
    (hs : s ≠ []) : codec.convToYogLoop (n + 1) s = some (cs, rest) ↔
      ∃ c cs', codec.convCharToYog s = some c ∧
        codec.convToYogLoop n (s.drop (width s)) = some (cs', rest) ∧ cs = c :: cs' := by
  rw [convToYogLoop, h.getCharBytes hs]
  simp only [Option.bind_eq_bind, Option.bind_some, Option.bind_eq_some_iff, Option.pure_def,
    Option.some.injEq, Prod.mk.injEq]
  constructor
  · rintro ⟨c, hc, ⟨cs', rest'⟩, hcs, rfl, rfl⟩
    exact ⟨c, cs', hc, hcs, rfl⟩
  · rintro ⟨c, cs', hc, hcs, rfl⟩
    exact ⟨c, hc, _, hcs, rfl, rfl⟩

theorem whole_of_loop : ∀ {fuel n : Nat} {s : List Byte} {cs : List (Except Fault YogChar)},
    codec.countChars fuel s = some n → codec.convToYogLoop n s = some (cs, []) →
      Whole width needs s
  | _, _, [], _, _, _ => .nil
  | 0, _, b :: s, _, hn, _ => absurd hn (by simp [countChars])
  | fuel + 1, n, b :: s, cs, hn, hcs => by
    have hs := List.cons_ne_nil b s
    rw [h.countChars_succ hs, Option.map_eq_some_iff] at hn
    obtain ⟨n, hn, rfl⟩ := hn
    obtain ⟨c, cs', hc, hcs', rfl⟩ := (h.convToYogLoop_succ hs).1 hcs
    refine .cons hs ((h.char hs).1 ?_) (whole_of_loop hn hcs')
    rw [hc]
    rfl

theorem loop_of_whole {s : List Byte} (hw : Whole width needs s) : ∀ {fuel : Nat},
    s.length ≤ fuel → ∃ n cs, codec.countChars fuel s = some n ∧
      codec.convToYogLoop n s = some (cs, []) ∧ cs.length = n := by
  induction hw with
  | nil =>
    intro fuel _
    exact ⟨0, [], by rcases fuel with _ | fuel <;> rfl, rfl, rfl⟩
  | @cons s hs hneeds _ ih =>
    intro fuel hfuel
    have hpos := List.length_pos_iff.2 hs
    rcases fuel with _ | fuel
    · omega
    have hdrop : (s.drop (width s)).length ≤ fuel := by
      have hwidth := h.width_pos s
      rw [List.length_drop]
      omega
    obtain ⟨n, cs, hn, hcs, hlen⟩ := ih hdrop
    obtain ⟨c, hc⟩ := Option.isSome_iff_exists.1 ((h.char hs).2 hneeds)
    refine ⟨n + 1, c :: cs, ?_, (h.convToYogLoop_succ hs).2 ⟨c, cs, hc, hcs, rfl⟩, ?_⟩
    · rw [h.countChars_succ hs, hn]
      rfl
    · rw [List.length_cons, hlen]

theorem decodesWithin_iff (s : List Byte) : codec.DecodesWithin s ↔ Whole width needs s := by
  constructor
  · rintro ⟨n, cs, hn, hcs, -⟩
    exact h.whole_of_loop hn hcs
  · exact fun hw => h.loop_of_whole hw le_rfl

end Asks

end Passes

theorem isSome_readByte_bind {β : Type} (s : List Byte) (i : Nat) (f : Nat → Option β) :
    ((readByte s i).bind f).isSome ↔ i < s.length ∧ (f (byteAt s i)).isSome := by
  unfold readByte byteAt
  by_cases h : i < s.length <;> simp [h]

theorem readByte_zero {s : List Byte} (hs : s ≠ []) : readByte s 0 = some (byteAt s 0) := by
  obtain ⟨b, s, rfl⟩ := List.exists_cons_of_ne_nil hs
  rfl

theorem ascii_asks : Asks ascii (fun _ => 1) fun _ => 1 where
  getCharBytes _ := rfl
  width_pos _ := Nat.one_pos
  char {s} hs := by
    refine (isSome_readByte_bind s 0 _).trans ((and_iff_left rfl).trans ?_)
    omega

theorem utf8GetCharBytes_eq {s : List Byte} (hs : s ≠ []) :
    utf8GetCharBytes s = some (Yog.utf8GetCharBytes s) := by
  unfold utf8GetCharBytes Yog.utf8GetCharBytes
  rw [readByte_zero hs, Option.bind_eq_bind, Option.bind_some]
  split_ifs <;> rfl

theorem utf8_asks : Asks utf8 Yog.utf8GetCharBytes Yog.utf8GetCharBytes where
  getCharBytes hs := utf8GetCharBytes_eq hs
  width_pos s := by
    unfold Yog.utf8GetCharBytes
    split_ifs <;> decide
  char {s} hs := by
    have hpos := List.length_pos_iff.2 hs
    have hn : Yog.utf8GetCharBytes s = 1 ∨ Yog.utf8GetCharBytes s = 2 ∨ Yog.utf8GetCharBytes s = 3 ∨
        Yog.utf8GetCharBytes s = 4 ∨ Yog.utf8GetCharBytes s = 5 ∨ Yog.utf8GetCharBytes s = 6 := by
      unfold Yog.utf8GetCharBytes
      split_ifs <;> simp
    show (utf8ConvCharToYog s).isSome ↔ _
    unfold utf8ConvCharToYog
    rw [Option.bind_eq_bind, isSome_readByte_bind, and_iff_right hpos, utf8GetCharBytes_eq hs]
    rcases hn with hn | hn | hn | hn | hn | hn <;> rw [hn] <;>
      simp [isSome_readByte_bind] <;> omega

open TableEncoding

section ShiftJis

variable (m : Mapping ShiftJis.Code)

theorem shiftJisGetCharBytes_eq {s : List Byte} (hs : s ≠ []) :
    shiftJisGetCharBytes s = some (ShiftJis.getCharBytes s) := by
  unfold shiftJisGetCharBytes ShiftJis.getCharBytes
  rw [readByte_zero hs, Option.bind_eq_bind, Option.bind_some]
  split_ifs <;> rfl

/-- Two bytes are read where two are gone on by. -/
theorem shiftJis_asks : Asks (shiftJis m) ShiftJis.getCharBytes ShiftJis.getCharBytes where
  getCharBytes hs := shiftJisGetCharBytes_eq hs
  width_pos s := by
    unfold ShiftJis.getCharBytes
    split_ifs <;> decide
  char {s} hs := by
    have hpos := List.length_pos_iff.2 hs
    show (shiftJisConvCharToYog m s).isSome ↔ _
    unfold shiftJisConvCharToYog ShiftJis.getCharBytes
    rw [Option.bind_eq_bind, isSome_readByte_bind, and_iff_right hpos]
    have hsecond (f : Nat → Option (Except Fault YogChar)) (hf : ∀ c2, (f c2).isSome) :
        ((readByte s 1).bind f).isSome ↔ 2 ≤ s.length := by
      rw [isSome_readByte_bind]
      exact and_iff_left (hf _)
    by_cases h₁ : isascii (byteAt s 0)
    · rw [if_pos h₁]
      unfold isascii at h₁
      rw [if_neg (by omega), if_neg (by omega)]
      exact iff_of_true rfl hpos
    rw [if_neg h₁]
    by_cases h₂ : 0xa1 ≤ byteAt s 0 ∧ byteAt s 0 ≤ 0xdf
    · rw [if_pos h₂, if_neg (by omega), if_neg (by omega)]
      exact iff_of_true rfl hpos
    rw [if_neg h₂]
    unfold ShiftJis.rowOf
    by_cases h₃ : 0x81 ≤ byteAt s 0 ∧ byteAt s 0 ≤ 0x9f
    · simp only [if_pos h₃]
      refine hsecond _ fun c2 => ?_
      rcases ShiftJis.columnOf c2 with _ | column <;> rfl
    simp only [if_neg h₃]
    by_cases h₄ : 0xe0 ≤ byteAt s 0 ∧ byteAt s 0 ≤ 0xfc
    · simp only [if_pos h₄]
      refine hsecond _ fun c2 => ?_
      rcases ShiftJis.columnOf c2 with _ | column <;> rfl
    · simp only [if_neg h₄]
      exact iff_of_true rfl hpos

end ShiftJis

section EucJp

variable (m : Mapping EucJp.Code)

theorem eucJpGetCharBytes_eq {s : List Byte} (hs : s ≠ []) :
    eucJpGetCharBytes s = some (EucJp.getCharBytes s) := by
  unfold eucJpGetCharBytes EucJp.getCharBytes
  rw [readByte_zero hs, Option.bind_eq_bind, Option.bind_some]
  split_ifs <;> rfl

/-- How many bytes the decoder of EUC-JP reads: two of what starts no character. -/
def eucJpNeeds (s : List Byte) : Nat :=
  if isascii (byteAt s 0) then 1 else if byteAt s 0 = 0x8f then 3 else 2

theorem eucJp_asks : Asks (eucJp m) EucJp.getCharBytes eucJpNeeds where
  getCharBytes hs := eucJpGetCharBytes_eq hs
  width_pos s := by
    unfold EucJp.getCharBytes
    split_ifs <;> decide
  char {s} hs := by
    have hpos := List.length_pos_iff.2 hs
    show (eucJpConvCharToYog m s).isSome ↔ _
    unfold eucJpConvCharToYog eucJpNeeds
    rw [Option.bind_eq_bind, isSome_readByte_bind, and_iff_right hpos]
    by_cases h₁ : isascii (byteAt s 0)
    · rw [if_pos h₁, if_pos h₁]
      exact iff_of_true rfl hpos
    rw [if_neg h₁, if_neg h₁]
    by_cases h₂ : byteAt s 0 = 0x8e
    · rw [if_pos h₂, if_neg (by omega), isSome_readByte_bind]
      refine and_iff_left ?_
      split_ifs <;> rfl
    rw [if_neg h₂]
    by_cases h₃ : byteAt s 0 = 0x8f
    · simp [h₃, isSome_readByte_bind]
      omega
    · simp [h₃, isSome_readByte_bind]
      omega

end EucJp

/-- The binary has the size that was computed, terminator included, and all of it is written. -/
def ExactlyFilled (codec : Codec) (s : List YogChar) : Prop :=
  ∃ n bin, codec.convFromYog s = .ok (n, bin) ∧ bin.length = n

section Filling

variable {codec : Codec}

/-- The size of a character is the number of bytes that are written for it. -/
def Sizes (codec : Codec) : Prop :=
  ∀ c, codec.getYogCharBytes c = (codec.convCharFromYog c).map List.length

theorem computeBytes_cons {c : YogChar} {cs : List YogChar} {n : Nat} :
    codec.computeBytes (c :: cs) = .ok n ↔ ∃ k l, codec.getYogCharBytes c = .ok k ∧
      codec.computeBytes cs = .ok l ∧ n = k + l := by
  rw [computeBytes]
  rcases codec.getYogCharBytes c with e | k
  · simp [bind, Except.bind]
  · rcases codec.computeBytes cs with e | l
    · simp [bind, Except.bind]
    · simp [bind, Except.bind, pure, Except.pure, eq_comm]

theorem exists_written_of_computed (h : codec.Sizes) : ∀ {s : List YogChar} {n : Nat},
    codec.computeBytes s = .ok n → ∀ c ∈ s, ∃ b, codec.convCharFromYog c = .ok b
  | [], _, _ => nofun
  | c :: cs, n, hn => by
    obtain ⟨k, l, hk, hl, -⟩ := computeBytes_cons.1 hn
    rw [List.forall_mem_cons]
    refine ⟨?_, exists_written_of_computed h hl⟩
    rw [h] at hk
    rcases hb : codec.convCharFromYog c with e | b
    · rw [hb] at hk
      cases hk
    · exact ⟨b, rfl⟩

theorem convFromYogLoop_cons {size : Nat} {buf b : List Byte} {c : YogChar} {cs : List YogChar}
    (hb : codec.convCharFromYog c = .ok b) (hroom : buf.length + b.length ≤ size) :
    codec.convFromYogLoop size buf (c :: cs) = codec.convFromYogLoop size (buf ++ b) cs := by
  rw [convFromYogLoop, hb]
  exact if_pos hroom

/-- With the bytes that are still to come counted, the writes stay in the buffer and end where the
terminator goes. -/
theorem filled_of_written (h : codec.Sizes) : ∀ {s : List YogChar},
    (∀ c ∈ s, ∃ b, codec.convCharFromYog c = .ok b) → ∀ buf : List Byte, ∃ n bin,
      codec.computeBytes s = .ok n ∧
        codec.convFromYogLoop (buf.length + n + 1) buf s = .ok bin ∧
          bin.length = buf.length + n + 1
  | [], _, buf => ⟨0, buf ++ [toByte 0], rfl, if_pos (Nat.lt_succ_self _), List.length_append⟩
  | c :: cs, hs, buf => by
    rw [List.forall_mem_cons] at hs
    obtain ⟨⟨b, hb⟩, hs⟩ := hs
    have hk : codec.getYogCharBytes c = .ok b.length := by
      rw [h, hb]
      rfl
    obtain ⟨n, bin, hn, hbin, hlen⟩ := filled_of_written h hs (buf ++ b)
    rw [List.length_append] at hbin hlen
    refine ⟨b.length + n, bin, computeBytes_cons.2 ⟨_, _, hk, hn, rfl⟩, ?_, ?_⟩
    · rw [convFromYogLoop_cons hb (by omega), ← Nat.add_assoc]
      exact hbin
    · rw [hlen]
      omega

theorem exactlyFilled_iff (h : codec.Sizes) (s : List YogChar) :
    codec.ExactlyFilled s ↔ ∀ c ∈ s, ∃ b, codec.convCharFromYog c = .ok b := by
  constructor
  · rintro ⟨n, bin, hs, -⟩
    rcases hn : codec.computeBytes s with e | k
    · rw [convFromYog, hn] at hs
      cases hs
    · exact exists_written_of_computed h hn
  · intro hs
    obtain ⟨n, bin, hn, hbin, hlen⟩ := filled_of_written h hs []
    rw [List.length_nil, Nat.zero_add] at hbin hlen
    refine ⟨n + 1, bin, ?_, hlen⟩
    rw [convFromYog, hn]
    show (codec.convFromYogLoop (n + 1) [] s >>= _) = _
    rw [hbin]
    rfl

end Filling

theorem utf8_sizes : utf8.Sizes := fun c => congrArg Except.ok <| by
  unfold utf8GetYogCharBytes utf8ConvCharFromYog
  split_ifs <;> rfl

theorem ascii_sizes : ascii.Sizes := fun c => congrArg Except.ok <| by
  show 1 = (if isascii c.val then _ else _ : List Byte).length
  split_ifs <;> rfl

/-- The character has bytes in the tables of an encoding: a row of its own where a table is indexed
with it, and `?` where no table is looked into. -/
def Written {Code : List Byte → Prop} (m : Mapping Code) (c : YogChar) : Prop :=
  Indexed c ∧ (m.u2entry c.val).isSome ∨ ¬ Indexed c ∧ (c.val < 0x1e3e ∨ 0x2a6b2 < c.val)

theorem table_written_iff {Code Found : List Byte → Prop} {m : Mapping Code} {enc : TableEncoding}
    (h : Decodes m enc Found) (c : YogChar) :
    (∃ b, tableConvCharFromYog m c = .ok b) ↔ Written m c := by
  rw [← h.convCharFromYog]
  unfold Written
  rcases range_cases c with hc | ⟨hc, hc'⟩ | ⟨hc, hc'⟩
  · rw [or_iff_left fun h' => h'.1 hc, and_iff_right hc]
    rcases he : m.u2entry c.val with _ | e
    · rw [h.conv_no_row hc he]
      simp
    · exact iff_of_true ⟨_, (h.conv_row hc he).1⟩ rfl
  · exact iff_of_true ⟨_, h.conv_question hc hc'⟩ (.inr ⟨hc, hc'⟩)
  · have hnot : ¬ Indexed c := by
      unfold Indexed
      omega
    rw [h.conv_above hc hc', or_iff_right fun h' => hnot h'.1]
    exact iff_of_false nofun (by omega)

theorem table_sizes {Code Found : List Byte → Prop} {m : Mapping Code} {enc : TableEncoding}
    (h : Decodes m enc Found) (c : YogChar) :
    tableGetYogCharBytes m c = (tableConvCharFromYog m c).map List.length := by
  rw [← h.getYogCharBytes, ← h.convCharFromYog]
  exact h.separates.lengths c

theorem shiftJis_sizes (m : Mapping ShiftJis.Code) : (shiftJis m).Sizes :=
  table_sizes (ShiftJis.decodes m)

theorem eucJp_sizes (m : Mapping EucJp.Code) : (eucJp m).Sizes := table_sizes (EucJp.decodes m)

theorem exactlyFilled_iff_each (m : Mapping ShiftJis.Code) (m' : Mapping EucJp.Code)
    (s : List YogChar) : ascii.ExactlyFilled s ∧ utf8.ExactlyFilled s ∧
      ((shiftJis m).ExactlyFilled s ↔ ∀ c ∈ s, Written m c) ∧
      ((eucJp m').ExactlyFilled s ↔ ∀ c ∈ s, Written m' c) := by
  refine ⟨?_, ?_, ?_, ?_⟩
  · exact (exactlyFilled_iff ascii_sizes s).2 fun c _ => ⟨_, rfl⟩
  · exact (exactlyFilled_iff utf8_sizes s).2 fun c _ => ⟨_, rfl⟩
  · rw [exactlyFilled_iff (shiftJis_sizes m)]
    exact forall₂_congr fun c _ => table_written_iff (ShiftJis.decodes m) c
  · rw [exactlyFilled_iff (eucJp_sizes m')]
    exact forall₂_congr fun c _ => table_written_iff (EucJp.decodes m') c

/-- A buffer of ASCII is always decoded inside of it, any other where its characters are whole. -/
theorem decodesWithin_iff_each (m : Mapping ShiftJis.Code) (m' : Mapping EucJp.Code)
    (s : List Byte) : ascii.DecodesWithin s ∧
      (utf8.DecodesWithin s ↔ Whole Yog.utf8GetCharBytes Yog.utf8GetCharBytes s) ∧
      ((shiftJis m).DecodesWithin s ↔ Whole ShiftJis.getCharBytes ShiftJis.getCharBytes s) ∧
      ((eucJp m').DecodesWithin s ↔ Whole EucJp.getCharBytes eucJpNeeds s) :=
  ⟨(ascii_asks.decodesWithin_iff s).2 (whole_of_one s), utf8_asks.decodesWithin_iff s,
    (shiftJis_asks m).decodesWithin_iff s, (eucJp_asks m').decodesWithin_iff s⟩

/-- The first byte of three, alone. -/
theorem not_decodesWithin_cut : ¬ utf8.DecodesWithin [toByte 0xe3] := by
  rw [utf8_asks.decodesWithin_iff]
  intro h
  rcases h with _ | ⟨-, hneeds, -⟩
  exact absurd hneeds (by decide)

/-- The rows of U+00B4, `ACUTE ACCENT`, and U+00B6, `PILCROW SIGN`: there is none between them. -/
def besideMicroSign : Mapping ShiftJis.Code where
  entries := [⟨[toByte 0x81, toByte 0x4c], [0xb4]⟩, ⟨[toByte 0x81, toByte 0xf7], [0xb6]⟩]
  nodup := by decide
  coded := by
    simp only [List.forall_mem_cons, List.not_mem_nil, IsEmpty.forall_iff, implies_true, and_true]
    constructor
    · exact fun _ => .zenkaku (.inl (by decide)) (.inl (by decide))
    · exact fun _ => .zenkaku (.inl (by decide)) (.inr (by decide))
  few := by decide

/-- U+00B5, `MICRO SIGN`, has no row. -/
theorem not_exactlyFilled_missing :
    ¬ (shiftJis besideMicroSign).ExactlyFilled [toYogChar 0xb5] := by
  have hnone : besideMicroSign.u2entry 0xb5 = none := by decide
  rw [exactlyFilled_iff (shiftJis_sizes besideMicroSign), List.forall_mem_singleton]
  refine mt (table_written_iff (ShiftJis.decodes besideMicroSign) _).1 ?_
  rintro (⟨-, h⟩ | ⟨h, -⟩)
  · rw [show (toYogChar 0xb5).val = 0xb5 from rfl, hnone] at h
    cases h
  · exact h (.inl (by decide))

end Codec

end Yog
