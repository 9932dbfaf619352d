import Css.Proofs.Rule.Parsed
import Css.Proofs.Token.Tiles

/-!
# What a lenient parser warns of

A lenient parser goes through the same steps as a strict one until it meets a fault. Its warnings come in
the order of the source, up to those for which no text is to blame and those behind a place where the
source ends too early.
-/
namespace Css
open List Token
namespace ParseM
variable {α : Type}

/-- The lenient run notes some faults after those that were noted before. If there are none, then the
strict run is the same run; else the strict run fails with the first of them. -/
def Agrees (strict lenient : ParseM α) : Prop :=
  ∀ faults : List Fault, ∃ more : List Fault, (lenient.run.run faults).2 = faults ++ more ∧
    match more with
    | [] => strict.run.run faults = lenient.run.run faults
    | first :: _ => strict.run.run faults = (.error first,faults)

end ParseM

lemma agrees_parse (d : Dialect) (src : String) :
    ParseM.Agrees (Rule.parse (d.recovering false) src) (Rule.parse (d.recovering true) src) := by
  intro fts
  obtain ⟨r,more,hlenient,hstrict,-⟩ := Rule.runs_parse (Checks.established_parsed d _) fts
  refine ⟨more,by rw [hlenient],?_⟩
  cases more with
  | nil => rw [hstrict,hlenient,append_nil,head?_nil,Option.elim_none]
  | cons first more => exact hstrict

/-- A source parses strictly if and only if it parses leniently without a warning, and then it has the
same rules. If it parses only leniently, then the first warning is the fault of the strict parser. If
it does not parse leniently, then it does not parse strictly. -/
theorem Rule.parse_strict_iff_lenient (d : Dialect) (source : String) :
    let strict := (Rule.parse { d with lenient := false } source).run.run []
    let lenient := (Rule.parse { d with lenient := true } source).run.run []
    (∀ rules, strict.1 = .ok rules ↔ lenient = (.ok rules, [])) ∧
      (∀ fault, strict.1 = .error fault → ∀ rules, lenient.1 = .ok rules →
        lenient.2.head? = some fault) ∧
      ∀ fault, lenient.1 = .error fault → ∃ fault', strict.1 = .error fault' := by
  intro strict lenient
  obtain ⟨more, hmore, hstrict⟩ := agrees_parse d source []
  change lenient.2 = [] ++ more at hmore
  rw [nil_append] at hmore
  cases more with
  | nil =>
    -- Nothing was noted, so that both are the same run.
    change strict = lenient at hstrict
    rw [hstrict]
    refine ⟨?_, ?_, ?_⟩
    · intro rules
      constructor
      · intro h
        exact Prod.ext h hmore
      · intro h
        rw [h]
    · intro fault hfault rules hrules
      rw [hfault] at hrules
      cases hrules
    · intro fault hfault
      exact ⟨fault, hfault⟩
  | cons first rest =>
    change strict = (.error first, []) at hstrict
    rw [hstrict]
    refine ⟨?_, ?_, ?_⟩
    · intro rules
      constructor
      · intro h
        cases h
      · intro h
        rw [h] at hmore
        cases hmore
    · intro fault hfault _ _
      cases hfault
      rw [hmore]
      rfl
    · intro _ _
      exact ⟨first, rfl⟩

/-- `@media x{a{b;c:d}}e{f:g}` parses only leniently. The one warning, in a rule inside of a group, is the
fault of the strict parser. -/
theorem Rule.parse_strict_iff_lenient_nested :
    let source := "@media x\x7ba\x7bb;c:d\x7d\x7de\x7bf:g\x7d"
    let d : Dialect := ⟨SourceFile.ofText "a.css" source, false, false, false, false⟩
    ∃ fault rules, ((Rule.parse d source).run.run []).1 = .error fault ∧
      (Rule.parse { d with lenient := true } source).run.run [] = (.ok rules, [fault]) := by
  intro source d
  have hfails : ((Rule.parse d source).run.run []).1.isOk = false := by decide +kernel
  have hparses : ((Rule.parse { d with lenient := true } source).run.run []).1.isOk = true ∧
      ((Rule.parse { d with lenient := true } source).run.run []).2.length = 1 := by
    decide +kernel
  obtain ⟨_, hfirst, _⟩ := Rule.parse_strict_iff_lenient d source
  obtain ⟨hok, hlength⟩ := hparses
  obtain ⟨warning, hwarning⟩ := length_eq_one_iff.mp hlength
  cases hstrict : ((Rule.parse d source).run.run []).1 with
  | ok rules =>
    rw [hstrict] at hfails
    cases hfails
  | error fault =>
    cases hlenient : ((Rule.parse { d with lenient := true } source).run.run []).1 with
    | error fault' =>
      rw [hlenient] at hok
      cases hok
    | ok rules =>
      have hhead := hfirst fault hstrict rules hlenient
      rw [hwarning, head?_cons, Option.some.injEq] at hhead
      exact ⟨fault, rules, rfl, Prod.ext hlenient (hhead ▸ hwarning)⟩

def Error.span (e : Error) : Span := (e.place.map Place.span).getD .none

def Error.isEnd (e : Error) : Bool := e.cause == .parse .unexpectedEnd

namespace Token

lemma ordered_scanRules (src : String) : (scanRules src).Pairwise fun t u => t.span.start < u.span.start :=
  (ordered_scanFrom 0 src.toList).sublist filter_sublist

lemma start_le_of_mem_scanRules {src : String} {t : Token} (ht : t ∈ scanRules src) :
    t.span.start ≤ Text.utf8Length src.toList := by
  obtain ⟨pre,r,hr,-,rfl⟩ := exists_scanner_of_mem_scanFrom (mem_filter.mp ht).1
  rw [← hr,Text.utf8Length_append]
  change 0 + _ ≤ _
  omega

end Token

namespace StyleSheet
variable {source : String} {options : ParseOptions} {sheet : StyleSheet}

lemma exists_follow (h : parse source options = .ok sheet) :
    ∃ faults, sheet.warnings = faults.map (SourceFile.ofText options.filename source).error ∧ Follow 0 faults := by
  obtain ⟨rules,faults,hrun,rfl⟩ := parse_ok h
  obtain ⟨-,rest,halong⟩ := Rule.parsed_of_run (Checks.established_parsed _ _) hrun
  refine ⟨faults,rfl,?_⟩
  exact halong.follow (ordered_scanRules source) (fun _ => start_le_of_mem_scanRules) (suffix_refl _)
    (.inl rfl) fun _ _ => Nat.zero_le _

lemma order_of_split (h : parse source options = .ok sheet) {pre between post : List Error} {first second : Error}
    (hs : sheet.warnings = pre ++ first :: (between ++ second :: post)) :
    first.span.start ≤ second.span.start ∨ second.span = .none ∨ ∃ warning ∈ first :: between, warning.isEnd := by
  obtain ⟨faults,hw,hf⟩ := exists_follow h
  obtain ⟨fs,_,rfl,-,htail⟩ := append_eq_map_iff.mp (hs.symm.trans hw)
  obtain ⟨f,_,rfl,rfl,hmore⟩ := map_eq_cons_iff.mp htail
  obtain ⟨gs,_,rfl,rfl,hlast⟩ := map_eq_append_iff.mp hmore
  obtain ⟨g,_,rfl,rfl,-⟩ := map_eq_cons_iff.mp hlast
  rcases Nat.lt_or_ge g.span.start f.span.start with hlt | hge
  · refine .inr ((hf.of_lt hlt).imp_right ?_)
    rintro ⟨fault,hm,he⟩
    exact ⟨_,mem_map_of_mem (l := f :: gs) hm,he⟩
  · exact .inl hge

/-- Of two warnings the second starts before the first only if no text is to blame for it, or if the source
has ended too early, by a warning that is the first or stands between both. So warnings are in the order of
the source if there are no such warnings. -/
theorem parse_warnings_ordered (h : parse source options = .ok sheet) :
    (∀ before first between second after,
      sheet.warnings = before ++ first :: (between ++ second :: after) →
        first.span.start ≤ second.span.start ∨ second.span = .none ∨
          ∃ warning ∈ first :: between, warning.isEnd) ∧
      ((∀ warning ∈ sheet.warnings, warning.span ≠ .none ∧ warning.isEnd = false) →
        sheet.warnings.Pairwise fun first second => first.span.start ≤ second.span.start) := by
  refine ⟨fun _ _ _ _ _ => order_of_split h, fun hnone => ?_⟩
  rw [pairwise_iff_forall_sublist]
  intro first second hsub
  obtain ⟨xs, ys, hw, hfirst, hsub⟩ := cons_sublist_iff.mp hsub
  obtain ⟨before, between, rfl⟩ := append_of_mem hfirst
  obtain ⟨more, after, rfl⟩ := append_of_mem (singleton_sublist.mp hsub)
  have hs : sheet.warnings = before ++ first :: (between ++ more ++ second :: after) := by
    rw [hw]
    simp
  rcases order_of_split h hs with hle | hn | ⟨warning, hm, he⟩
  · exact hle
  · exact absurd hn (hnone second (by simp [hs])).1
  · have hmem : warning ∈ sheet.warnings := by
      rw [hs, ← cons_append]
      exact mem_append_right _ (mem_append_left _ hm)
    rw [(hnone warning hmem).2] at he
    cases he

/-- `a{b;c}@media x{d{e}}f{g:}` has four warnings, one of them in a rule inside of a group, in order. -/
theorem parse_warnings_ordered_nested :
    let source := "a\x7bb;c\x7d@media x\x7bd\x7be\x7d\x7df\x7bg:\x7d"
    ∃ sheet, parse source { lenient := true } = .ok sheet ∧
      sheet.warnings.map (·.span.start) = [2, 4, 17, 22] ∧
        sheet.warnings.Pairwise fun first second => first.span.start ≤ second.span.start := by
  intro source
  obtain ⟨sheet, hparse, hcheck⟩ := Rule.ok_of_any (x := parse source { lenient := true })
    (p := fun sheet => sheet.warnings.map (·.span.start) == [2, 4, 17, 22] &&
      sheet.warnings.all fun warning => warning.span != .none && !warning.isEnd) (by decide +kernel)
  rw [Bool.and_eq_true, beq_iff_eq, all_eq_true] at hcheck
  obtain ⟨hstarts, hall⟩ := hcheck
  refine ⟨sheet, hparse, hstarts, (parse_warnings_ordered hparse).2 fun warning hw => ?_⟩
  simpa using hall warning hw

/-- In `a{b}{}` there is no text to blame for the missing selector of the second rule, and the warning
follows the one about `b`. In `@media x{]@import;` the source ends inside of the group, and behind that
warning the parser goes on with what follows the bracket. -/
theorem parse_warnings_unordered :
    (∃ sheet, parse "a\x7bb\x7d\x7b\x7d" { lenient := true } = .ok sheet ∧
      sheet.warnings.map (·.span.start) = [2, 0]) ∧
    ∃ sheet, parse "@media x\x7b]@import;" { lenient := true } = .ok sheet ∧
      sheet.warnings.map (·.span.start) = [18, 10] := by
  have hrun (source : String) (starts : List Nat)
      (h : (parse source { lenient := true }).toOption.any
        fun sheet => sheet.warnings.map (·.span.start) == starts) :
      ∃ sheet, parse source { lenient := true } = .ok sheet ∧
        sheet.warnings.map (·.span.start) = starts := by
    obtain ⟨sheet, hparse, hstarts⟩ := Rule.ok_of_any h
    exact ⟨sheet, hparse, eq_of_beq hstarts⟩
  exact ⟨hrun _ _ (by decide +kernel), hrun _ _ (by decide +kernel)⟩

end StyleSheet
end Css
