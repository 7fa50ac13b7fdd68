import Yog.RegexpObject
import Yog.Proofs.Engine
import Yog.Proofs.Matching

/-!
# Searching with regular expressions

A search tries one start after the other: it finds what the first start matches where a match is
(`searchGeneral_found`), and nothing if there is none (`searchGeneral_none`).
-/

namespace Yog

namespace YogRegexp

open Corgi YogString

section Engine

variable {unicode : Unicode} {subject : List CorgiChar} {code : List CorgiCode} {ic : Bool}
  {ts : List Corgi.Task} (hlen : code.length < 2 ^ 32)
include hlen

/-- With enough fuel the engine returns what the search comes to. -/
theorem sreMatch_reaches {x : Config} {pc : ℕ} {st : Corgi.State}
    (hfits : Corgi.Fits code ic x pc st) {r : Option Answer}
    (hr : Backtracking.Search (next (engineMeaning unicode ic) subject) x r) :
    ∃ ret after, Yields st r ret after ∧
      ∃ N, ∀ n, N ≤ n → sreMatch unicode code subject n pc x.2 st = some (ret, after) := by
  obtain ⟨N, ret, after, hrun, hm⟩ := (sreMatch_iff hlen hfits).1 hr
  exact ⟨ret, after, hm, N, fun n hn => sreMatch_mono hlen hn hfits hrun⟩

/-- After a start without a match the search goes on with the next. -/
theorem searchGeneral_next {ptr : ℕ} {st : Corgi.State} (hfits : Corgi.Fits code ic (ts, ptr) 0 st)
    (hnone : Backtracking.Search (next (engineMeaning unicode ic) subject) (ts, ptr) none) :
    ∃ after, Corgi.Fits code ic (ts, ptr + 1) 0 after ∧ ∃ N, ∀ n, N ≤ n → ∀ turns,
      searchGeneral unicode code subject n (turns + 1) ptr st =
        searchGeneral unicode code subject n turns (ptr + 1) after := by
  have hst : Restored st { st with ptr } := ⟨rfl, rfl, fun _ _ => rfl⟩
  obtain ⟨ret, after, ⟨rfl, hafter⟩, N, hN⟩ := sreMatch_reaches hlen (hfits.restored hst) hnone
  have hfits' := (hfits.restored hst).restored hafter
  refine ⟨after, ⟨hfits'.codes, hfits'.allocated⟩, N, fun n hn turns => ?_⟩
  simp only [searchGeneral, hN n hn]

theorem searchGeneral_found {q e : ℕ}
    (hfound : Backtracking.Search (next (engineMeaning unicode ic) subject) (ts, q)
      (some (.found e))) {turns ptr : ℕ} (hptr : ptr ≤ q) (hturns : q < ptr + turns)
    (hnone : ∀ i, ptr ≤ i → i < q →
      Backtracking.Search (next (engineMeaning unicode ic) subject) (ts, i) none)
    {st : Corgi.State} (hfits : Corgi.Fits code ic (ts, ptr) 0 st) :
    ∃ after, after.ptr = e ∧ ∃ N, ∀ n, N ≤ n → searchGeneral unicode code subject n turns ptr st =
      some (.success, q, after) := by
  induction turns generalizing ptr st with
  | zero => omega
  | succ turns ih =>
    rcases hptr.eq_or_lt with rfl | hlt
    · have hst : Restored st { st with ptr } := ⟨rfl, rfl, fun _ _ => rfl⟩
      obtain ⟨ret, after, ⟨rfl, he⟩, N, hN⟩ :=
        sreMatch_reaches hlen (hfits.restored hst) hfound
      refine ⟨after, he, N, fun n hn => ?_⟩
      simp only [searchGeneral, hN n hn]
    · obtain ⟨after, hfits', N, hN⟩ := searchGeneral_next hlen hfits (hnone ptr le_rfl hlt)
      obtain ⟨after', he, M, hM⟩ := ih hlt (by omega) (fun i hi => hnone i (by omega)) hfits'
      refine ⟨after', he, max N M, fun n hn => ?_⟩
      rw [hN n (le_trans (le_max_left N M) hn)]
      exact hM n (le_trans (le_max_right N M) hn)

theorem searchGeneral_none {turns ptr : ℕ} (hnone : ∀ i, ptr ≤ i → i < ptr + turns →
      Backtracking.Search (next (engineMeaning unicode ic) subject) (ts, i) none)
    {st : Corgi.State} (hfits : Corgi.Fits code ic (ts, ptr) 0 st) : ∃ v, ∃ N, ∀ n, N ≤ n →
      searchGeneral unicode code subject n turns ptr st = some (.failure, v) := by
  induction turns generalizing ptr st with
  | zero => exact ⟨(ptr, st), 0, fun n _ => rfl⟩
  | succ turns ih =>
    obtain ⟨after, hfits', N, hN⟩ :=
      searchGeneral_next hlen hfits (hnone ptr le_rfl (by omega))
    obtain ⟨v, M, hM⟩ := ih (fun i hi hlt => hnone i (by omega) (by omega)) hfits'
    refine ⟨v, max N M, fun n hn => ?_⟩
    rw [hN n (le_trans (le_max_left N M) hn)]
    exact hM n (le_trans (le_max_right N M) hn)

end Engine

section Search

variable {unicode : Unicode} (regexp : CorgiRegexp) (ns : List Corgi.Node) {s : List YogChar}
  {pos : ℕ} (hcode : chainCode false ns ++ [Opcode.success.code] = regexp.code)
  (hlen : regexp.code.length < 2 ^ 32)
  (hop : regexp.code[0]?.bind Opcode.ofCode ≠ some .literal)

include hop in
theorem sreSearch_eq (subject : List CorgiChar) (fuel start : ℕ) (st : Corgi.State) :
    sreSearch unicode regexp.code subject fuel start st =
      searchGeneral unicode regexp.code subject fuel (subject.length + 1 - start) start st := by
  unfold sreSearch
  split
  · next h _ => exact absurd h hop
  · rfl

include hcode hlen hop

/-- A pattern without groups is found where it first matches. -/
theorem search_found (hgroups : regexp.groups = []) {q e : ℕ} (hpos : pos ≤ q) (hq : q < s.length)
    (hfound : Matches (engineMeaning unicode false) (s.map Fin.val) ns q (some (.found e)))
    (hnone : ∀ i, pos ≤ i → i < q →
      Matches (engineMeaning unicode false) (s.map Fin.val) ns i none) :
    Partial.Reaches (fun n => search unicode n regexp s pos) (.ok (some ⟨q, e, []⟩)) := by
  have hfits := fits_start false ns pos
  rw [hcode] at hfits
  have hturns : q < pos + (s.length + 1 - pos) := by omega
  obtain ⟨after, he, N, hN⟩ := searchGeneral_found hlen hfound hpos hturns hnone hfits
  refine ⟨N, fun n hn => ?_⟩
  have hn' : normalizeIndex s pos = pos := by simp [normalizeIndex]
  have hoffset : index2offset s pos = some pos := by
    rw [index2offset, if_neg (by omega), if_pos (by omega), Int.toNat_natCast]
  unfold search
  simp only [hn', hoffset, corgiSearch, sreSearch_eq regexp hop, List.length_map, reduceCtorEq,
    and_false, if_false]
  rw [hN n hn]
  simp [he, hgroups]

theorem search_none
    (hnone : ∀ i, pos ≤ i → i ≤ s.length →
      Matches (engineMeaning unicode false) (s.map Fin.val) ns i none) :
    Partial.Reaches (fun n => search unicode n regexp s pos) (.ok none) := by
  have hfits := fits_start false ns pos
  rw [hcode] at hfits
  have hstarts : ∀ i, pos ≤ i → i < pos + (s.length + 1 - pos) →
      Matches (engineMeaning unicode false) (s.map Fin.val) ns i none :=
    fun i hi hlt => hnone i hi (by omega)
  obtain ⟨v, N, hN⟩ := searchGeneral_none hlen hstarts hfits
  refine ⟨N, fun n hn => ?_⟩
  unfold search
  simp only
  split_ifs with h
  · rfl
  · simp only [corgiSearch, sreSearch_eq regexp hop, List.length_map, hN n hn]

end Search

end YogRegexp

end Yog
