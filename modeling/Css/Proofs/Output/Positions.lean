import Css.Sheet.Basic
import Mathlib.Tactic.Lemma

/-!
# Positions in the source map

The nodes of a style sheet are its rules, keyframes and declarations.
-/
namespace Css
open List Text Piece

/-- The line that text ends in, which is the number of line feeds, and the column, in units of UTF-16
since the last of them. -/
def Text.position (before : List Char) : Nat × Nat :=
  (before.count '\n',Text.utf16Length (before.reverse.takeWhile (· ≠ '\n')))

lemma Text.position_concat (before : List Char) (c : Char) :
    position (before ++ [c]) = Writer.advance (position before) c := by
  unfold position Writer.advance
  by_cases hc : c = '\n'
  · subst hc
    simp [utf16Length]
  · have hcn : [c].count '\n' = 0 := count_eq_zero.mpr (by simpa using Ne.symm hc)
    simp [hc,hcn,utf16Length,Nat.add_comm]

lemma Text.position_append (before s : List Char) :
    position (before ++ s) = s.foldl Writer.advance (position before) := by
  induction s generalizing before with
  | nil => simp
  | cons c s ih =>
    rw [foldl_cons,← position_concat,← ih,append_assoc,singleton_append]

lemma Text.position_le {before post : List Char} (h : before <+: post) : (position before).1 < (position post).1 ∨
      (position before).1 = (position post).1 ∧ (position before).2 ≤ (position post).2 := by
  obtain ⟨s,rfl⟩ := h
  induction s generalizing before with
  | nil => simp
  | cons c s ih =>
    have hr := @ih (before ++ [c])
    rw [position_concat,append_assoc,singleton_append] at hr
    have hs : (position before).1 < (Writer.advance (position before) c).1 ∨
        (position before).1 = (Writer.advance (position before) c).1 ∧
          (position before).2 ≤ (Writer.advance (position before) c).2 := by
      unfold Writer.advance
      split <;> dsimp only <;> omega
    omega

namespace Piece

def indentationAfter (n : Nat) : Piece → Nat
  | indent => n + 2
  | dedent => n - 2
  | _ => n

def textAt (minify : Bool) (n : Nat) : Piece → List Char
  | text s => s.toList
  | space => if minify then [] else [' ']
  | line => if minify then [] else '\n' :: List.replicate n ' '
  | blankLine => if minify then [] else '\n' :: '\n' :: List.replicate n ' '
  | indent | dedent | mark _ => []

def layout (minify : Bool) (n : Nat) : List Piece → List Char
  | [] => []
  | p :: ps => p.textAt minify n ++ layout minify (p.indentationAfter n) ps

def indentationAfterAll (n : Nat) (ps : List Piece) : Nat := ps.foldl indentationAfter n

def marks (minify : Bool) (n : Nat) (before : List Char) : List Piece → List (Location × List Char)
  | [] => []
  | p :: ps =>
    (match p with
      | mark location => [(location,before)]
      | _ => []) ++ marks minify (p.indentationAfter n) (before ++ p.textAt minify n) ps

lemma layout_append (m : Bool) (n : Nat) (ps qs : List Piece) : layout m n (ps ++ qs) =
      layout m n ps ++ layout m (indentationAfterAll n ps) qs := by
  induction ps generalizing n with
  | nil => rfl
  | cons p ps ih => simp [layout,ih,indentationAfterAll]

lemma marks_append (m : Bool) (n : Nat) (before : List Char) (ps qs : List Piece) :
    marks m n before (ps ++ qs) = marks m n before ps ++
        marks m (indentationAfterAll n ps) (before ++ layout m n ps) qs := by
  induction ps generalizing n before with
  | nil => simp [marks,layout,indentationAfterAll]
  | cons p ps ih => simp [marks,layout,ih,indentationAfterAll]

end Piece

namespace Writer

def IsTracked (w : Writer) : Prop := (w.line,w.column) = Text.position w.code.toList

def mappingOf (source : Nat) (mark : Location × List Char) : Mapping :=
  ⟨(Text.position mark.2).1,(Text.position mark.2).2,some ⟨source,mark.1.line,mark.1.column,none⟩⟩

def extend (w : Writer) (added : List Char) (marks : List (Location × List Char)) (indentation : Nat) : Writer := { w with
    code := w.code ++ String.ofList added
    line := (Text.position (w.code.toList ++ added)).1
    column := (Text.position (w.code.toList ++ added)).2
    indentation
    mappings := w.mappings ++ if w.mapped then marks.map (mappingOf w.source) else [] }

lemma toList_code_extend (w : Writer) (added : List Char) (marks : List (Location × List Char))
    (n : Nat) : (w.extend added marks n).code.toList = w.code.toList ++ added := by
  simp [extend]

lemma isTracked_extend (w : Writer) (added : List Char) (marks : List (Location × List Char))
    (n : Nat) : (w.extend added marks n).IsTracked := by
  rw [IsTracked,toList_code_extend]; rfl

lemma extend_extend (w : Writer) (added added' : List Char) (marks marks' : List (Location × List Char)) (n n' : Nat) :
    (w.extend added marks n).extend added' marks' n' = w.extend (added ++ added') (marks ++ marks') n' := by
  have hc : w.code ++ String.ofList added ++ String.ofList added' = w.code ++ String.ofList (added ++ added') := by
    rw [← String.toList_inj]
    simp
  cases hm : w.mapped <;> simp [extend,hm,hc]

variable {w : Writer}

lemma putText_eq_extend (h : w.IsTracked) (s : String) : w.putText s = w.extend s.toList [] w.indentation := by
  have hp := position_append w.code.toList s.toList
  rw [← h] at hp
  simp [putText,extend,hp]

lemma eq_extend_nil (h : w.IsTracked) : w = w.extend [] [] w.indentation := by
  have hp : (w.line,w.column) = position w.code.toList := h
  simp [extend,← hp]

lemma optional_eq_extend (h : w.IsTracked) {s : String} {added : List Char} (hs : s.toList = added) :
    (if w.minify then w else w.putText s) = w.extend (if w.minify then [] else added) [] w.indentation := by
  subst hs
  cases w.minify
  · exact putText_eq_extend h s
  · exact eq_extend_nil h

lemma put_eq_extend (h : w.IsTracked) (p : Piece) : w.put p = w.extend (p.textAt w.minify w.indentation)
        (marks w.minify w.indentation w.code.toList [p])
        (p.indentationAfter w.indentation) := by
  cases p with
  | text s => exact putText_eq_extend h s
  | space => exact optional_eq_extend h (by decide)
  | line => exact optional_eq_extend h (String.toList_ofList)
  | blankLine =>
    have hl : (if w.minify then w else (w.putText "\n").putLine) = if w.minify then w
        else w.putText ("\n" ++ String.ofList ('\n' :: List.replicate w.indentation ' ')) := by
      split
      · rfl
      · next hm => simp [putLine,putText,hm,String.append_assoc]
    rw [put,hl]
    exact optional_eq_extend h (by simp)
  | indent =>
    exact congrArg (fun v : Writer => { v with indentation := w.indentation + 2 }) (eq_extend_nil h)
  | dedent =>
    exact congrArg (fun v : Writer => { v with indentation := w.indentation - 2 }) (eq_extend_nil h)
  | mark loc =>
    have hp : position w.code.toList = (w.line,w.column) := h.symm
    by_cases hm : w.mapped
    · simp [put,extend,hm,marks,textAt,indentationAfter,mappingOf,hp]
    · have hpt : w.put (.mark loc) = w := by simp [put,hm]
      rw [hpt]
      refine (eq_extend_nil h).trans ?_
      simp [extend,hm,textAt,indentationAfter]

lemma putAll_eq_extend (h : w.IsTracked) (ps : List Piece) : w.putAll ps =
      w.extend (layout w.minify w.indentation ps) (marks w.minify w.indentation w.code.toList ps)
        (indentationAfterAll w.indentation ps) := by
  induction ps generalizing w with
  | nil => exact eq_extend_nil h
  | cons p ps ih =>
    have hp := put_eq_extend h p
    have ht : (w.put p).IsTracked := hp ▸ isTracked_extend ..
    calc w.putAll (p :: ps) = (w.put p).putAll ps := rfl
      _ = _ := by
        rw [ih ht,hp,toList_code_extend,extend_extend]
        congr 1
        simp [extend,marks]

end Writer
end Css

namespace Css
open List Rule.pieces Part.render Declaration Rule Piece

inductive Node where
  | rule (r : Rule)
  | frame (f : Keyframe)
  | declaration (d : Declaration)

abbrev Outline := List (Nat × Node)

def Declaration.outline (minify : Bool) (n : Nat) (declarations : List Declaration) : Outline :=
  (if minify then Declaration.minify declarations else declarations).map fun d => (n,.declaration d)

def Keyframe.outline (minify : Bool) (n : Nat) (fs : List Keyframe) : Outline :=
  fs.flatMap fun f => (n,.frame f) :: Declaration.outline minify (n + 2) f.declarations

def Statement.outline (minify : Bool) (n : Nat) : Statement → Outline
  | keyframes _ _ _ fs => Keyframe.outline minify (n + 2) fs
  | property _ declarations | fontFace declarations | page _ declarations =>
    Declaration.outline minify (n + 2) declarations
  | _ => []

/-- The nodes in a rule, from the first to the last. A rule that names the enclosing one has the same
style rule in it. -/
def Rule.outline (minify : Bool) (n : Nat) : Rule → Outline
  | style block rules =>
    Declaration.outline minify (n + 2) block.declarations ++ outlineAll minify (n + 2) rules
  | nest block rules =>
    (n,.rule (style block rules)) ::
      (Declaration.outline minify (n + 2) block.declarations ++ outlineAll minify (n + 2) rules)
  | group _ rules _ => outlineAll minify (n + 2) rules
  | statement s _ => s.outline minify n
where
  outlineAll (minify : Bool) (n : Nat) : List Rule → Outline
    | [] => []
    | r :: rs => (n,.rule r) :: (r.outline minify n ++ outlineAll minify n rs)

namespace Node

def location : Node → Location
  | rule (.style block _) | rule (.nest block _) => block.location
  | rule (.group _ _ location) | rule (.statement _ location) => location
  | frame f => f.location
  | declaration d => d.location

def outline (minify : Bool) (n : Nat) : Node → Outline
  | rule r => r.outline minify n
  | frame f => Declaration.outline minify (n + 2) f.declarations
  | declaration _ => []

def pieces (options : PrintOptions) : Node → List Piece
  | rule r => r.pieces options
  | frame f => f.pieces options.minify
  | declaration d => [.mark d.location,.text (d.render options.minify)]

def text (options : PrintOptions) (n : Nat) (node : Node) : List Char :=
  let start : Writer := { minify := options.minify, mapped := false, indentation := n }
  (start.putAll (node.pieces options)).code.toList

lemma text_eq_layout (opts : PrintOptions) (n : Nat) (node : Node) :
    node.text opts n = layout opts.minify n (node.pieces opts) := by
  have ht : Writer.IsTracked { minify := opts.minify, mapped := false, indentation := n } := rfl
  rw [text,Writer.putAll_eq_extend ht,Writer.toList_code_extend]; rfl

end Node

structure Site where
  indentation : Nat
  node : Node
  before : List Char

namespace Site

def stop (options : PrintOptions) (s : Site) : List Char := s.before ++ s.node.text options s.indentation

def entry (s : Site) : Nat × Node := (s.indentation,s.node)

def mapping (s : Site) : Mapping := Writer.mappingOf 0 (s.node.location,s.before)

/-- The second node comes after the first, or is one of the nodes in it and printed within its text. -/
def Follows (options : PrintOptions) (s t : Site) : Prop :=
  s.stop options <+: t.before ∨ s.before <+: t.before ∧ t.stop options <+: s.stop options ∧
      t.entry ∈ s.node.outline options.minify s.indentation

lemma Follows.before_prefix {opts : PrintOptions} {s t : Site} (h : s.Follows opts t) : s.before <+: t.before := by
  obtain h | ⟨h,-⟩ := h
  · exact (prefix_append _ _).trans h
  · exact h

end Site

def Piece.isMark : Piece → Bool
  | mark _ => true
  | _ => false

/-- Pieces that take the indentation from `n` to `m` print the nodes of an outline in order, each with
its mark, and nothing else has one. -/
structure Spells (options : PrintOptions) (n m : Nat) (ps : List Piece) (outline : Outline) : Prop where
  indentationAfterAll : Piece.indentationAfterAll n ps = m
  sites : ∀ before, ∃ sites : List Site,
    sites.map Site.entry = outline ∧
    Piece.marks options.minify n before ps = sites.map (fun s => (s.node.location,s.before)) ∧
    (∀ s ∈ sites, before <+: s.before ∧
      s.stop options <+: before ++ Piece.layout options.minify n ps) ∧
    sites.Pairwise (Site.Follows options)

namespace Spells
variable {options : PrintOptions} {n m k : Nat} {ps qs : List Piece} {outline outline' : Outline}

lemma nil : Spells options n n [] [] where
  indentationAfterAll := rfl
  sites := fun _ => ⟨[],by simp [marks]⟩

lemma append (hp : Spells options n m ps outline) (hq : Spells options m k qs outline') :
    Spells options n k (ps ++ qs) (outline ++ outline') where
  indentationAfterAll := by
    rw [← hq.indentationAfterAll,← hp.indentationAfterAll]
    exact foldl_append
  sites := by
    intro before
    obtain ⟨sites,he,hm,hi,hf⟩ := hp.sites before
    obtain ⟨sites',he',hm',hi',hf'⟩ := hq.sites (before ++ layout options.minify n ps)
    have hl := layout_append options.minify n ps qs
    rw [hp.indentationAfterAll] at hl
    refine ⟨sites ++ sites',?_,?_,?_,?_⟩
    · rw [map_append,he,he']
    · rw [marks_append,hp.indentationAfterAll,hm,hm',map_append]
    · rw [hl,← append_assoc]
      intro s hs
      obtain hs | hs := mem_append.mp hs
      · exact ⟨(hi s hs).1,(hi s hs).2.trans (prefix_append _ _)⟩
      · exact ⟨(prefix_append _ _).trans (hi' s hs).1,(hi' s hs).2⟩
    · -- What the second pieces print starts behind all that the first ones do.
      refine pairwise_append.mpr ⟨hf,hf',fun s hs t ht => .inl ?_⟩
      exact (hi s hs).2.trans (hi' t ht).1

lemma cons {p : Piece} (hp : p.isMark = false) (h : Spells options (p.indentationAfter n) m ps outline) :
    Spells options n m (p :: ps) outline := by
  have hf : Spells options n (p.indentationAfter n) [p] [] := by
    refine ⟨rfl,fun before => ⟨[],rfl,?_,by simp,List.Pairwise.nil⟩⟩
    cases p with
    | mark loc => cases hp
    | _ => rfl
  exact hf.append h

lemma node (node : Node) (hp : node.pieces options = .mark node.location :: ps)
    (h : Spells options n n ps (node.outline options.minify n)) :
    Spells options n n (node.pieces options) ((n,node) :: node.outline options.minify n) where
  indentationAfterAll := by
    rw [hp]
    exact h.indentationAfterAll
  sites := by
    intro before
    obtain ⟨sites,he,hm,hi,hf⟩ := h.sites before
    have hl : layout options.minify n (node.pieces options) = layout options.minify n ps := by
      rw [hp]; rfl
    have hst : Site.stop options ⟨n,node,before⟩ = before ++ layout options.minify n (node.pieces options) := by
      rw [Site.stop,Node.text_eq_layout]
    refine ⟨⟨n,node,before⟩ :: sites,?_,?_,?_,?_⟩
    · rw [map_cons,he]; rfl
    · rw [hp,map_cons,← hm]
      simp [marks,textAt,indentationAfter]
    · intro s hs
      obtain rfl | hs := mem_cons.mp hs
      · exact ⟨prefix_refl _,hst ▸ prefix_refl _⟩
      · rw [hl]
        exact hi s hs
    · refine pairwise_cons.mpr ⟨fun s hs => .inr ⟨(hi s hs).1,?_,?_⟩,hf⟩
      · rw [hst,hl]
        exact (hi s hs).2
      · show s.entry ∈ node.outline options.minify n
        rw [← he]
        exact mem_map_of_mem hs

lemma eq_nil (h : Spells options n m [] outline) : outline = [] := by
  obtain ⟨sites,he,hm,-⟩ := h.sites []
  have hs : sites = [] := map_eq_nil_iff.mp hm.symm
  rw [← he,hs]; rfl

end Spells

section
variable (options : PrintOptions)

lemma spells_declarations (moreFollows : Bool) (n : Nat) (ds : List Declaration) :
    Spells options n n (pieces options.minify moreFollows ds) (ds.map fun d => (n,.declaration d)) := by
  induction ds with
  | nil => exact .nil
  | cons d rest ih =>
    have hn : Spells options n n (Node.pieces options (.declaration d)) [(n,.declaration d)] :=
      .node _ rfl (.cons rfl .nil)
    have hs : Spells options n n (if options.minify && rest.isEmpty && !moreFollows then [] else [.text ";"]) [] := by
      split
      · exact .nil
      · exact .cons rfl .nil
    have hl : Spells options n n (.line :: Node.pieces options (.declaration d)) [(n,.declaration d)] := .cons rfl hn
    exact (hl.append hs).append ih

lemma spells_body (moreFollows : Bool) (n : Nat) (ds : List Declaration) :
    Spells options n n (bodyPieces options.minify moreFollows ds) (outline options.minify n ds) :=
  spells_declarations ..

lemma spells_closing (n : Nat) : Spells options (n + 2) n [.dedent,.line,.text "\x7d"] [] :=
  .cons rfl (.cons rfl (.cons rfl .nil))

lemma spells_block (n : Nat) (ds : List Declaration) : Spells options n n (blockPieces options.minify ds)
      (outline options.minify (n + 2) ds) := by
  have ho : Spells options n (n + 2) [.space,.text "\x7b",.indent] [] := .cons rfl (.cons rfl (.cons rfl .nil))
  have h := (ho.append (spells_body options false (n + 2) ds)).append (spells_closing options n)
  rwa [nil_append,append_nil] at h

lemma spells_frames (n : Nat) (fs : List Keyframe) :
    Spells options n n (Keyframe.listPieces options.minify fs) (Keyframe.outline options.minify n fs) := by
  have hf (f : Keyframe) : Spells options n n (Node.pieces options (.frame f))
      ((n,.frame f) :: outline options.minify (n + 2) f.declarations) :=
    .node _ rfl (.cons rfl (spells_block options n f.declarations))
  induction fs with
  | nil => exact .nil
  | cons f fs ih =>
    cases fs with
    | nil =>
      rw [Keyframe.outline,flatMap_singleton]
      exact hf f
    | cons g fs => exact (hf f).append (.cons rfl ih)

variable {n : Nat} {outline : Outline}

lemma spells_indented {ps : List Piece} (h : Spells options (n + 2) (n + 2) ps outline) :
    Spells options n n ([.indent,.line] ++ ps ++ [.dedent]) outline := by
  have hi : Spells options n (n + 2) ([.indent,.line] ++ ps) outline := .cons rfl (.cons rfl h)
  have hd : Spells options (n + 2) n [.dedent] [] := .cons rfl .nil
  have ha := hi.append hd
  rwa [append_nil] at ha

lemma spells_braced (head : String) {ps : List Piece} (h : Spells options n n ps outline) :
    Spells options n n ([.text head,.space,.text "\x7b"] ++ ps ++ [.line,.text "\x7d"]) outline := by
  have ho : Spells options n n ([.text head,.space,.text "\x7b"] ++ ps) outline := .cons rfl (.cons rfl (.cons rfl h))
  have hc : Spells options n n [.line,.text "\x7d"] [] := .cons rfl (.cons rfl .nil)
  have ha := ho.append hc
  rwa [append_nil] at ha

lemma spells_statement (n : Nat) (s : Statement) :
    Spells options n n (s.pieces options.minify) (s.outline options.minify n) := by
  cases s with
  | keyframes name quoted vendor fs =>
    refine spells_braced options _ ?_
    cases fs with
    | nil => exact .nil
    | cons f fs => exact spells_indented options (spells_frames options (n + 2) (f :: fs))
  | property _ ds | fontFace ds | page _ ds => exact .cons rfl (spells_block options n ds)
  | unknown name prelude block =>
    cases block with
    | none => exact .cons rfl .nil
    | some contents => exact .cons rfl (.cons rfl (.cons rfl .nil))
  | _ => exact .cons rfl .nil

lemma spells_style (block : StyleBlock) {nested : List Piece} (h : Spells options (n + 2) (n + 2) nested outline) :
    Spells options n n (stylePieces options block nested).tail
      (Declaration.outline options.minify (n + 2) block.declarations ++ outline) := by
  have ho : Spells options n (n + 2)
      [.text (Selector.renderAll options block.selectors),.space,.text "\x7b",.indent] [] :=
    .cons rfl (.cons rfl (.cons rfl (.cons rfl .nil)))
  have hn : Spells options (n + 2) (n + 2) (if nested.isEmpty then []
        else (if block.declarations.isEmpty then .line else .blankLine) :: nested) outline := by
    split
    · next he =>
        rw [isEmpty_iff.mp he] at h
        rw [h.eq_nil]
        exact .nil
    · split
      · exact .cons rfl h
      · exact .cons rfl h
  have hb := spells_body options (!nested.isEmpty) (n + 2) block.declarations
  have ha := ((ho.append hb).append hn).append (spells_closing options n)
  rwa [nil_append,append_nil] at ha

lemma spells_rules (n : Nat) (rs : List Rule) :
    Spells options n n (listPieces options rs) (Rule.outline.outlineAll options.minify n rs) := by
  induction rs using Rule.induct generalizing n with
  | nil => exact .nil
  | cons r rs hr ih =>
    have h : Spells options n n (r.pieces options) ((n,.rule r) :: r.outline options.minify n) := by
      cases r with
      | style block rs =>
        exact Spells.node (.rule (.style block rs)) rfl (spells_style options block (hr (n + 2)))
      | nest block rs =>
        have hi := Spells.node (.rule (.style block rs)) rfl (spells_style options block (hr (n + 2)))
        exact Spells.node (.rule (.nest block rs)) rfl hi
      | group g rs loc =>
        refine Spells.node (.rule (.group g rs loc)) rfl (spells_braced options _ ?_)
        have hr := hr (n + 2)
        split
        · next hn =>
            rw [hn] at hr
            have hi : Node.outline options.minify n (.rule (.group g rs loc)) = [] := hr.eq_nil
            rw [hi]
            exact .nil
        · exact spells_indented options hr
      | statement s loc =>
        exact Spells.node (.rule (.statement s loc)) rfl (spells_statement options n s)
    cases rs with
    | nil => rwa [← append_nil (r.outline options.minify n)] at h
    | cons s rs => exact h.append (.cons rfl (ih n))

end

section
variable (minify b c : Bool) (pseudoClasses : List (String × String))

lemma renderAll_unmapped (sels : List Selector) :
    renderAll ⟨minify,b,pseudoClasses⟩ sels = renderAll ⟨minify,c,pseudoClasses⟩ sels := by
  refine (Part.induct (P := fun parts =>
      renderParts ⟨minify,b,pseudoClasses⟩ parts = renderParts ⟨minify,c,pseudoClasses⟩ parts ∧
        renderSelector ⟨minify,b,pseudoClasses⟩ parts = renderSelector ⟨minify,c,pseudoClasses⟩ parts)
    (Q := fun sels =>
      renderAll ⟨minify,b,pseudoClasses⟩ sels = renderAll ⟨minify,c,pseudoClasses⟩ sels)
    ⟨rfl,rfl⟩ (fun part parts hp hps => ?_) rfl fun selector sels hs hss => ?_).2 sels
  · have h : part.render ⟨minify,b,pseudoClasses⟩ = part.render ⟨minify,c,pseudoClasses⟩ := by
      cases part with
      | pseudoClassOf name selectors => rw [Part.render,Part.render,hp]
      | global selector => exact hp
      | _ => rfl
    refine ⟨by rw [renderParts,renderParts,h,hps.1],?_⟩
    rw [Part.render.renderSelector.eq_def,Part.render.renderSelector.eq_def]
    dsimp only
    rw [hps.1]
    split
    · rfl
    · rfl
    · rw [h]
  · cases sels with
    | nil => exact hs.2
    | cons other sels =>
      show _ ++ Selector.comma minify ++ renderAll _ (other :: sels) =
        _ ++ Selector.comma minify ++ renderAll _ (other :: sels)
      rw [hs.2,hss]

lemma stylePieces_unmapped (block : StyleBlock) (nested : List Piece) :
    stylePieces ⟨minify,b,pseudoClasses⟩ block nested = stylePieces ⟨minify,c,pseudoClasses⟩ block nested := by
  rw [stylePieces,stylePieces,Selector.renderAll,Selector.renderAll,renderAll_unmapped]

lemma listPieces_unmapped (rs : List Rule) :
    listPieces ⟨minify,b,pseudoClasses⟩ rs = listPieces ⟨minify,c,pseudoClasses⟩ rs := by
  induction rs using Rule.induct with
  | nil => rfl
  | cons r rs hr ih =>
    have h : r.pieces ⟨minify,b,pseudoClasses⟩ = r.pieces ⟨minify,c,pseudoClasses⟩ := by
      cases r with
      | style | nest => rw [Rule.pieces,Rule.pieces,hr,stylePieces_unmapped]
      | group => rw [Rule.pieces,Rule.pieces,hr]
      | statement => rfl
    cases rs with
    | nil => exact h
    | cons s rs =>
      show _ ++ .blankLine :: listPieces _ (s :: rs) = _ ++ .blankLine :: listPieces _ (s :: rs)
      rw [h,ih]

end

namespace StyleSheet

def printedRules (sheet : StyleSheet) (minify : Bool) : List Rule :=
  if minify then Rule.compactList sheet.rules else sheet.rules

variable (sheet : StyleSheet) (minify : Bool) (pseudoClasses : List (String × String))

lemma putAll_printed (b : Bool) :
    let ps := listPieces ⟨minify,true,pseudoClasses⟩ (sheet.printedRules minify)
    Writer.putAll { minify, mapped := b } (printed ⟨minify,b,pseudoClasses⟩ sheet.rules) =
      Writer.extend { minify, mapped := b } (layout minify 0 ps) (marks minify 0 [] ps) (indentationAfterAll 0 ps) := by
  have ht : Writer.IsTracked { minify, mapped := b } := rfl
  rw [Writer.putAll_eq_extend ht,printed,listPieces_unmapped minify b true]; rfl

lemma code_print_unmapped (b c : Bool) :
    (sheet.print ⟨minify,b,pseudoClasses⟩).code = (sheet.print ⟨minify,c,pseudoClasses⟩).code := by
  unfold print
  dsimp only
  rw [putAll_printed,putAll_printed]; rfl

lemma layout_prefix_code : layout minify 0 (listPieces ⟨minify,true,pseudoClasses⟩ (sheet.printedRules minify)) <+:
      (sheet.print ⟨minify,true,pseudoClasses⟩).code.toList := by
  unfold print
  dsimp only
  rw [putAll_printed]
  split
  · rw [Writer.toList_code_extend]
    exact prefix_refl _
  · rw [String.toList_append,Writer.toList_code_extend]
    exact prefix_append _ _

/-- The mappings of a printed style sheet are those of the rules, keyframes and declarations printed, in
order: each has the position where the text of the node starts in the code. -/
theorem print_mappings : let options : PrintOptions := ⟨minify, true, pseudoClasses⟩
    let code := (sheet.print options).code
    ∃ (map : SourceMap) (sites : List Site),
      (sheet.print options).map = some map ∧ map.sources = [sheet.filename] ∧
      sites.map Site.entry = Rule.outline.outlineAll minify 0 (sheet.printedRules minify) ∧
      map.mappings = sites.map Site.mapping ∧
      (∀ s ∈ sites, s.before ++ s.node.text options s.indentation <+: code.toList) ∧
      sites.Pairwise (Site.Follows options) ∧
      map.mappings.Pairwise (fun a b => a.line < b.line ∨ a.line = b.line ∧ a.column ≤ b.column) ∧
      (sheet.print { options with sourceMap := false }).code = code := by
  intro options code
  obtain ⟨sites, hentries, hmarks, hinside, hfollows⟩ :=
    (spells_rules options 0 (sheet.printedRules minify)).sites []
  have hmappings : (Writer.putAll { minify, mapped := true }
      (Rule.printed options sheet.rules)).mappings = sites.map Site.mapping := by
    rw [putAll_printed]
    calc
      _ = (Piece.marks minify 0 [] (Rule.pieces.listPieces options (sheet.printedRules minify))).map
          (Writer.mappingOf 0) := nil_append _
      _ = _ := by
          rw [hmarks, map_map]
          rfl
  refine ⟨_, sites, rfl, rfl, hentries, hmappings, ?_, hfollows, ?_, ?_⟩
  · intro s hs
    exact (hinside s hs).2.trans (layout_prefix_code sheet minify pseudoClasses)
  · rw [hmappings, pairwise_map]
    exact hfollows.imp fun h => Text.position_le h.before_prefix
  · exact code_print_unmapped sheet minify pseudoClasses false true

end StyleSheet
end Css
