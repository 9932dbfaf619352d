import Css.Value.Basic
import Mathlib.Tactic.Lemma

/-!
# Parts of a value

The parts of a value between white space hold what the value holds, and a change of components that
leaves white space and commas alone changes the parts in the same way.
-/
namespace Css
open List Bool Component

section
variable {α β : Type} {p : α → Bool}

lemma flatten_splitOnP (xs : List α) : (xs.splitOnP p).flatten = xs.filter (!p ·) := by
  induction xs with
  | nil => rfl
  | cons x xs ih =>
    rw [splitOnP_cons_eq_if_modifyHead]
    by_cases hx : p x
    · rw [if_pos hx,flatten_cons,ih,filter_cons_of_neg (by simp [hx]),nil_append]
    · rw [if_neg hx,filter_cons_of_pos (by simp [hx]),← ih]
      cases hs : xs.splitOnP p with
      | nil => exact absurd hs (splitOnP_ne_nil p xs)
      | cons => rfl

lemma splitOnP_map {f : β → α} (xs : List β) : (xs.map f).splitOnP p = (xs.splitOnP (p ∘ f)).map (List.map f) := by
  induction xs with
  | nil => rfl
  | cons x xs ih =>
    rw [map_cons,splitOnP_cons_eq_if_modifyHead,splitOnP_cons_eq_if_modifyHead,ih]
    simp only [Function.comp_apply]
    split
    · rfl
    · cases xs.splitOnP (p ∘ f) <;> rfl

end

namespace Value
variable {value : Value}

lemma flatten_parts (value : Value) : value.parts.flatten = value.filter (!·.isWhitespace) := by
  rw [parts,flatten_filter_not_isEmpty,flatten_splitOnP]

lemma mem_of_mem_parts {part : Value} (h : part ∈ value.parts) : ∀ c ∈ part, c ∈ value := by
  intro c hc
  have hm := mem_flatten_of_mem h hc
  rw [flatten_parts] at hm
  exact (mem_filter.mp hm).1

lemma parts_map {f : Component → Component} (hb : ∀ c, (f c).isWhitespace = c.isWhitespace)
    (value : Value) : parts (value.map f) = value.parts.map (List.map f) := by
  unfold parts
  have hc : isWhitespace ∘ f = isWhitespace := funext hb
  have he : (fun part : Value => !part.isEmpty) ∘ List.map f = fun part => !part.isEmpty := by
    funext part
    simp
  rw [splitOnP_map,hc,filter_map,he]

lemma parts?_map {f : Component → Component} (hb : ∀ c, (f c).isWhitespace = c.isWhitespace)
    (hc : ∀ c, (f c).isComma = c.isComma) (value : Value) :
    parts? (value.map f) = value.parts?.map (List.map (List.map f)) := by
  unfold parts?
  rw [parts_map hb,any_map,show isComma ∘ f = isComma from funext hc]
  split <;> rfl

lemma exists_mem_parts {c : Component} (hc : c ∈ value) (hb : c.isWhitespace = false) :
    ∃ part ∈ value.parts, c ∈ part := by
  rw [← mem_flatten,flatten_parts]
  exact mem_filter.mpr ⟨hc,by rw [hb]; rfl⟩

lemma parts_of_mem_parts {part : Value} (h : part ∈ value.parts) : part.parts = [part] := by
  have hs : ∀ c ∈ part, c.isWhitespace = false := by
    intro c hc
    have hm := mem_flatten_of_mem h hc
    rw [flatten_parts] at hm
    exact (not_eq_true' _).mp (mem_filter.mp hm).2
  unfold parts
  rw [splitOnP_eq_singleton hs]
  simp only [filter_cons,filter_nil,(mem_filter.mp h).2,if_true]

lemma parts_append_whitespace (a b : Value) : parts (a ++ .whitespace :: b) = a.parts ++ b.parts := by
  unfold parts
  rw [splitOnP_append_cons a b (p := isWhitespace) rfl,filter_append]

lemma ofParts_cons_cons (a b : Value) (rest : List Value) :
    ofParts (a :: b :: rest) = a ++ .whitespace :: ofParts (b :: rest) := by
  simp [ofParts,List.intercalate]

lemma parts_ofParts (values : List Value) : (ofParts values).parts = values.flatMap parts := by
  induction values with
  | nil => rfl
  | cons a rest ih =>
    cases rest with
    | nil => simp [ofParts]
    | cons b rest =>
      rw [ofParts_cons_cons,parts_append_whitespace,ih]; rfl

variable {values : List Value}

lemma mem_ofParts {c : Component} : c ∈ ofParts values → c = .whitespace ∨ ∃ value ∈ values, c ∈ value := by
  induction values with
  | nil => simp [ofParts]
  | cons a rest ih =>
    cases rest with
    | nil =>
      intro hc
      exact .inr ⟨a,mem_cons_self,by simpa [ofParts] using hc⟩
    | cons b rest =>
      intro hc
      rw [ofParts_cons_cons,mem_append,mem_cons] at hc
      rcases hc with hc | hc | hc
      · exact .inr ⟨a,mem_cons_self,hc⟩
      · exact .inl hc
      · rcases ih hc with hc | ⟨value,hv,hc⟩
        · exact .inl hc
        · exact .inr ⟨value,mem_cons_of_mem a hv,hc⟩

lemma hasVariable_ofParts (h : ∀ value ∈ values, value.hasVariable = false) : (ofParts values).hasVariable = false := by
  unfold hasVariable anywhere
  rw [any_eq_false]
  intro c hc
  rcases mem_ofParts hc with rfl | ⟨value,hv,hc⟩
  · exact false_ne_true
  · have hn := h value hv
    unfold hasVariable anywhere at hn
    exact any_eq_false.mp hn c hc

lemma parts?_ofParts (h : ∀ value ∈ values, ∀ c ∈ value, c.isComma = false) :
    (ofParts values).parts? = some (values.flatMap parts) := by
  have hcm : (ofParts values).any isComma = false := by
    rw [any_eq_false]
    intro c hc
    rcases mem_ofParts hc with rfl | ⟨value,hv,hc⟩
    · exact false_ne_true
    · rw [h value hv c hc]
      exact false_ne_true
  unfold parts?
  rw [hcm,parts_ofParts]; rfl

lemma parts?_eq_some {ps : List Value} (h : value.parts? = some ps) :
    value.parts = ps ∧ ∀ c ∈ value, c.isComma = false := by
  unfold parts? at h
  by_cases hcm : value.any isComma
  · rw [if_pos hcm] at h; cases h
  · rw [if_neg hcm] at h
    refine ⟨Option.some.inj h,?_⟩
    intro c hc
    have := any_eq_false.mp (eq_false_iff.mpr hcm) c hc
    exact eq_false_iff.mpr this

end Value
end Css
