import DocTree.Proofs.Tolerance.Alike

/-!
Texts, comments, groupings and sources are read alike from an object and from what is left of it when
harmless fields are left out.
-/

namespace DocTree.Reader

open Blur (drop)

variable {b : Blur} {f f' : Fields} {place : Place} {key : String}

/-! ### Links -/

theorem symbol?_leaner {r r' : Revival} (hr : r.blur b = r'.blur b) (h : Leaner b .symbol f f') :
    r'.symbol? f' = r.symbol? f := by
  have hfile : f'.text? "sourceFileName" = f.text? "sourceFileName" := h.text? (by decide)
  have hname : f'.text? "qualifiedName" = f.text? "qualifiedName" := h.text? (by decide)
  rw [Revival.symbol?, Revival.symbol?, hfile, hname, Revival.root_of_blur hr]

/-- What is no target of an inline tag gives none. -/
theorem linkTarget_eq_none {v : Json} (h : Shape.link.accepts v = false) :
    linkTarget (some v) = return none := by
  rw [Shape.accepts, Bool.or_eq_false_iff, Bool.or_eq_false_iff] at h
  cases v with
  | num n =>
    cases n with
    | int i =>
      cases i with
      | ofNat n =>
        have hn : ¬ n < Json.wordBound := fun hn => by
          simp [Json.asWord?, Json.asNat?, hn] at h
        rw [linkTarget, if_neg hn]
      | negSucc n => rfl
    | float x => rfl
  | str s => cases h.2
  | obj fields => cases h.1.2
  | null | bool _ | arr _ => rfl

theorem alike_linkTarget_pruned {v v' : Json} (h : Pruned (Harmless b) .symbol v v') :
    Alike b none id (linkTarget (some v)) (linkTarget (some v')) := by
  have hsame (v : Json) : Alike b none id (linkTarget (some v)) (linkTarget (some v)) := by
    rw [linkTarget.eq_def]
    split
    · split
      · exact Alike.bump.bind_eq fun _ => .pure rfl
      · exact .pure rfl
    · refine Alike.revival.bind fun r r' hr => .pure ?_
      rw [symbol?_leaner hr (.refl ..)]
    · exact .pure rfl
    · exact .pure rfl
  cases h with
  | refl => exact hsame v
  | arr hitems => exact .pure rfl
  | obj hfields =>
    refine Alike.revival.bind fun r r' hr => .pure ?_
    rw [symbol?_leaner hr hfields]

theorem alike_linkTarget (h : Leaner b .part f f') :
    Alike b none id (linkTarget (f.value? "target")) (linkTarget (f'.value? "target")) := by
  have hk : Place.part.shape? "target" = some .link := by decide
  rcases h.value? "target" with ⟨hv, hv'⟩ | ⟨v, v', hv, hv', hpruned⟩ | ⟨v, hv, hv', hmay⟩
  · rw [hv, hv']
    exact .pure rfl
  · rw [hv, hv']
    exact alike_linkTarget_pruned hpruned
  · rw [hv, hv', linkTarget_eq_none (hmay _ hk).1]
    exact .pure rfl

theorem alike_linkedFile (old : Option Nat) : Alike b none id (linkedFile old) (linkedFile old) := by
  cases old with
  | none => exact .pure rfl
  | some old =>
    refine Alike.revival.bind fun r r' hr => ?_
    rw [Revival.fileId?, Revival.fileId?, Revival.fileIds_of_blur hr]
    dsimp only
    split
    · exact (Alike.report _).bind_eq fun _ => .pure rfl
    · exact .pure rfl

/-! ### Texts -/

theorem alike_part (h : Leaner b .part f f') : Alike b none id (part f) (part f') := by
  have htext : f'.text "text" = f.text "text" := h.text (by decide)
  have hkind : f'.text? "kind" = f.text? "kind" := h.text? (by decide)
  have htag : f'.text "tag" = f.text "tag" := h.text (by decide)
  have hlink : f'.text? "tsLinkText" = f.text? "tsLinkText" := h.text? (by decide)
  have hanchor : f'.text? "targetAnchor" = f.text? "targetAnchor" := h.text? (by decide)
  rw [part, part, htext, hkind, htag, hlink, hanchor]
  split
  · exact .pure rfl
  · exact .pure rfl
  · exact (alike_linkTarget h).bind_eq fun _ => .pure rfl
  · have hword : f'.word? "target" = f.word? "target" := by
      have hkey : Place.part.shape? "target" = some .link := by decide
      refine h.bind hkey (fun _ _ => Pruned.asWord?) fun v hv => ?_
      rw [Shape.accepts, Bool.or_eq_false_iff, Bool.or_eq_false_iff] at hv
      exact eq_none_of_isSome_eq_false hv.1.1
    rw [hword]
    exact (alike_linkedFile _).bind_eq fun _ => .pure rfl
  · exact .pure rfl

theorem alike_parts {v v' : Option Json}
    (h : List.Forall₂ (Leaner b .part) (((v.bind (·.asArray?)).getD []).filterMap (·.asObject?))
      (((v'.bind (·.asArray?)).getD []).filterMap (·.asObject?))) :
    Alike b none id (parts v) (parts v') :=
  Alike.collect_eq h fun _ _ hg => alike_part hg

/-- The parts in the array under a key. -/
theorem alike_partsAt (h : Leaner b place f f') (hk : place.shape? key = some (.array .part)) :
    Alike b none id (parts (f.value? key)) (parts (f'.value? key)) :=
  alike_parts (h.objects hk)

/-- The parts under a key, where it is passed over whether it is there. -/
theorem alike_parts? (h : Leaner b place f f') (hk : place.shape? key = some (.array .part))
    (hallows : b.allows key = b.texts) :
    Alike b none (drop b.texts) (parts? f key) (parts? f' key) := by
  have hparts := alike_partsAt h hk
  rw [parts?, parts?]
  rcases h.value? key with ⟨hv, hv'⟩ | ⟨v, v', hv, hv', -⟩ | ⟨v, hv, hv', hmay⟩
  · rw [hv, hv']
    exact .pure rfl
  · rw [hv, hv'] at hparts ⊢
    exact hparts.bind_eq fun _ => .pure rfl
  · obtain ⟨hnone, hb⟩ := hmay _ hk
    have harray : v.asArray? = none := eq_none_of_isSome_eq_false hnone
    have hempty : parts (some v) = Pure.pure [] := by
      rw [parts, Option.bind_some, harray]
      rfl
    rw [hv, hv']
    dsimp only
    rw [hempty, pure_bind]
    exact .pure (by rw [← hallows, hb]; rfl)

theorem alike_blockTag (h : Leaner b .blockTag f f') :
    Alike b none id (blockTag f) (blockTag f') := by
  have htag : f'.text "tag" = f.text "tag" := h.text (by decide)
  have hname : f'.text? "name" = f.text? "name" := h.text? (by decide)
  rw [blockTag, blockTag, htag, hname]
  exact (alike_partsAt h (by decide)).bind_eq fun _ => .pure rfl

theorem alike_comment (h : Leaner b .comment f f') : Alike b none id (comment f) (comment f') := by
  have hlabel : f'.text? "label" = f.text? "label" := h.text? (by decide)
  have hmodifiers : (f'.items "modifierTags").filterMap (·.asString?) =
      (f.items "modifierTags").filterMap (·.asString?) :=
    (h.items (q := .other) (by decide)).filterMap fun _ _ => Pruned.asString?
  rw [comment, comment, hlabel, hmodifiers]
  refine (alike_partsAt h (by decide)).bind_eq fun summary => ?_
  have hkey : Place.comment.shape? "blockTags" = some (.array .blockTag) := by decide
  have htags := h.objects hkey
  exact (Alike.collect_eq htags fun g g' hg => alike_blockTag hg).bind_eq fun _ => .pure rfl

/-! ### Groupings -/

/-- A list under a key, where it is passed over whether the key is there. -/
theorem alike_list? {α β : Type} {g : α → β} {q : Place} {m m' : ReadM (List α)}
    (h : Leaner b place f f') (hk : place.shape? key = some (.array q))
    (hallows : b.allows key = b.lists) (hm : Alike b none (List.map g) m m')
    (hempty : f.items key = [] → m = Pure.pure []) :
    Alike b none (fun o => drop b.lists (o.map (·.map g)))
      (if f.has key then do return some (← m) else Pure.pure none)
      (if f'.has key then do return some (← m') else Pure.pure none) := by
  rcases h.has hk with hsame | ⟨hb, htrue, hfalse, hnone⟩
  · rw [hsame]
    split
    · refine hm.bind fun xs xs' hxs => .pure ?_
      rw [Option.map_some, Option.map_some, hxs]
    · exact .pure rfl
  · have hlists : b.lists = true := hallows ▸ hb
    rw [htrue, hfalse, if_pos rfl, if_neg Bool.false_ne_true, hempty hnone, pure_bind]
    exact .pure (by rw [hlists]; rfl)

theorem alike_category (h : Leaner b .category f f') :
    Alike b none (Option.map (Category.blur b)) (category f) (category f') := by
  have htitle : f'.text "title" = f.text "title" := h.text (by decide)
  have hchildren : f'.words "children" = f.words "children" := h.words (q := .other) (by decide)
  rw [category, category, htitle, hchildren]
  refine (alike_parts? h (by decide) (by rfl)).bind fun ps ps' hps => .pure ?_
  simp only [Option.map_some, Category.blur, hps]

theorem alike_categories? (h : Leaner b place f f')
    (hk : place.shape? "categories" = some (.array .category)) :
    Alike b none (Category.blur? b) (categories? f) (categories? f') := by
  rw [categories?, categories?]
  refine alike_list? h hk rfl (Alike.collect (h.objects hk) fun _ _ hg => alike_category hg) ?_
  rintro hnone
  rw [Fields.objects, hnone]
  rfl

theorem alike_group (h : Leaner b .group f f') :
    Alike b none (Option.map (Group.blur b)) (group f) (group f') := by
  have htitle : f'.text "title" = f.text "title" := h.text (by decide)
  have hchildren : f'.words "children" = f.words "children" := h.words (q := .other) (by decide)
  rw [group, group, htitle, hchildren]
  refine (alike_parts? h (by decide) (by rfl)).bind fun ps ps' hps => ?_
  refine (alike_categories? h (by decide)).bind fun cs cs' hcs => .pure ?_
  rw [Category.blur?, Category.blur?] at hcs
  simp only [Option.map_some, Group.blur, hps, hcs]

theorem alike_groups? (h : Leaner b .reflection f f') :
    Alike b none (Group.blur? b) (groups? f) (groups? f') := by
  have hk : Place.reflection.shape? "groups" = some (.array .group) := by decide
  rw [groups?, groups?]
  refine alike_list? h hk rfl (Alike.collect (h.objects hk) fun _ _ hg => alike_group hg) ?_
  rintro hnone
  rw [Fields.objects, hnone]
  rfl

/-! ### Sources -/

theorem alike_sources (h : Leaner b .reflection f f') : Alike b none id (sources f) (sources f') := by
  refine Alike.revival.bind fun r r' hr => .pure ?_
  have hkey : Place.reflection.shape? "sources" = some (.array .source) := by decide
  have hall := h.objects hkey
  rw [Revival.root_of_blur hr]
  generalize f.objects "sources" = xs at hall
  generalize f'.objects "sources" = ys at hall
  induction hall with
  | nil => rfl
  | @cons g g' xs ys hg hrest ih =>
    have hg : Leaner b .source g g' := hg
    have hfile : g'.text "fileName" = g.text "fileName" := hg.text (by decide)
    have hline : g'.word? "line" = g.word? "line" := hg.word? (by decide)
    have hcharacter : g'.word? "character" = g.word? "character" := hg.word? (by decide)
    have hurl : g'.text? "url" = g.text? "url" := hg.text? (by decide)
    have hsource : source r'.root g' = source r'.root g := by
      rw [source, source, hfile, hline, hcharacter, hurl]
    rw [List.map_cons, List.map_cons, hsource]
    exact congrArg (List.cons _) ih

end DocTree.Reader
