import KernelTyping.Dependency
import KernelTyping.Proofs.DepthFirst
import KernelTyping.Proofs.Kernel

/-!
# KernelTyping.Proofs.Dependency — the components and their order

Two names share a component if and only if each can be reached from the other.  The components of
`names` are disjoint, hold all of `names`, and each comes after those that it depends on
(`ComponentsOf`).  The components do not depend on the order of `names`, but for the names that
reach one another (`mem_components_of_perm`), nor on names that are added and on which none of the
others depends (`mem_components_of_filter`).
-/

namespace KernelTyping.Dependencies

open DepthFirst (Reaches)

variable {d : Dependencies} {names : List String}

theorem mem_keys_of_on {x y : String} (h : y ∈ d.on x) : x ∈ d.edges.keys := by
  unfold on at h
  by_contra hx
  rw [Std.ExtTreeMap.mem_keys] at hx
  rw [Std.ExtTreeMap.getD_eq_fallback hx] at h
  cases h

/-- Each name can be reached from the other. -/
def Mutual (d : Dependencies) (x y : String) : Prop := Reaches d.on x y ∧ Reaches d.on y x

namespace Mutual

variable {x y z : String}

theorem refl (x : String) : d.Mutual x x := ⟨.refl, .refl⟩

theorem symm (h : d.Mutual x y) : d.Mutual y x := ⟨h.2, h.1⟩

theorem trans (hxy : d.Mutual x y) (hyz : d.Mutual y z) : d.Mutual x z :=
  ⟨hxy.1.trans hyz.1, hyz.2.trans hxy.2⟩

end Mutual

theorem mem_closure {x y : String} : y ∈ d.closure x ↔ Reaches d.on x y := by
  rw [closure, DepthFirst.mem_reachable (fun x y => mem_keys_of_on) (by simp [depth])]
  simp

/-- The names of a component, in their order and each once. -/
def members (names : List String) : List String := names.reverse.eraseDups.reverse

theorem mem_members {x : String} : x ∈ members names ↔ x ∈ names := by
  simp [members, List.mem_eraseDups]

theorem nodup_eraseDups (names : List String) : names.eraseDups.Nodup := by
  induction hn : names.length using Nat.strongRecOn generalizing names with
  | ind n ih =>
    cases names with
    | nil => exact List.nodup_nil
    | cons name names =>
      have hle : (names.filter fun other => !other == name).length ≤ names.length :=
        List.length_filter_le _ _
      rw [List.length_cons] at hn
      rw [List.eraseDups_cons]
      refine List.nodup_cons.2 ⟨fun hmem => ?_, ih _ (by omega) _ rfl⟩
      have hname := (List.mem_filter.1 (List.mem_eraseDups.1 hmem)).2
      simp at hname

theorem nodup_members (names : List String) : (members names).Nodup :=
  List.nodup_reverse.2 (nodup_eraseDups _)

theorem eraseDups_filter (p : String → Bool) (names : List String) :
    (names.filter p).eraseDups = names.eraseDups.filter p := by
  induction hn : names.length using Nat.strongRecOn generalizing names with
  | ind n ih =>
    cases names with
    | nil => rfl
    | cons name names =>
      have hle : (names.filter fun other => !other == name).length ≤ names.length :=
        List.length_filter_le _ _
      rw [List.length_cons] at hn
      have hrest := ih _ (by omega) (names.filter fun other => !other == name) rfl
      rw [List.eraseDups_cons]
      by_cases hp : p name = true
      · rw [List.filter_cons_of_pos hp, List.eraseDups_cons, List.filter_cons_of_pos hp, ← hrest,
          List.filter_comm]
      · have hsame : (names.filter fun other => !other == name).filter p = names.filter p := by
          rw [List.filter_filter]
          refine List.filter_congr fun other _ => ?_
          by_cases hother : other = name
          · simp [hother, hp]
          · simp [hother]
        rw [List.filter_cons_of_neg hp, List.filter_cons_of_neg hp, ← hrest, hsame]

theorem members_filter (p : String → Bool) (names : List String) :
    members (names.filter p) = (members names).filter p := by
  rw [members, members, List.filter_reverse, ← eraseDups_filter, List.filter_reverse]

/-- A map that is listed by a function of the keys. -/
theorem getElem?_ofList_map {β : Type} (g : String → β) (names : List String) (x : String) :
    (Std.ExtTreeMap.ofList (names.map fun name => (name, g name)) : Std.ExtTreeMap String β)[x]? =
      if x ∈ names then some (g x) else none := by
  have hfold (m : Std.ExtTreeMap String β) :
      ((names.map fun name => (name, g name)).foldl (fun m p => m.insert p.1 p.2) m)[x]? =
        if x ∈ names then some (g x) else m[x]? := by
    induction names generalizing m with
    | nil => simp
    | cons name names ih =>
      simp only [List.map_cons, List.foldl_cons, ih, Std.ExtTreeMap.getElem?_insert, List.mem_cons,
        Std.LawfulEqOrd.compare_eq_iff_eq]
      by_cases hx : x ∈ names
      · simp [hx]
      · by_cases hname : name = x
        · simp [hname]
        · simp [hx, hname, Ne.symm hname]
  rw [Std.ExtTreeMap.ofList_eq_foldl, hfold]
  simp

theorem getD_closures {x : String} (h : x ∈ names) :
    (d.closures names).getD x ∅ = d.closure x := by
  rw [closures, Std.ExtTreeMap.getD_eq_getD_getElem?, getElem?_ofList_map, if_pos h]
  rfl

theorem on_ofKernel (k : Kernel) (names : List String) (x : String) :
    (ofKernel k names).on x = if x ∈ names then reads k (.ofList names) x else [] := by
  rw [on, ofKernel, Std.ExtTreeMap.getD_eq_getD_getElem?, getElem?_ofList_map]
  split <;> rfl

theorem mem_component {x y : String} (hx : x ∈ names) :
    y ∈ component (d.closures (members names)) (members names) x ↔ y ∈ names ∧ d.Mutual x y := by
  unfold component
  rw [List.mem_filter, mem_members]
  refine and_congr_right fun hy => ?_
  rw [getD_closures (mem_members.2 hx), getD_closures (mem_members.2 hy)]
  simp [mem_closure, Mutual, Std.ExtTreeSet.contains_iff_mem]

/-! ### The list of components -/

/-- The components of the names in `order`, at the place of their last names. -/
def collect (d : Dependencies) (names order : List String) : List (List String) :=
  order.foldr (addComponent (d.closures (members names)) (members names)) []

theorem collect_cons (name : String) (order : List String) :
    d.collect names (name :: order) =
      if (d.collect names order).any (name ∈ ·) then d.collect names order
      else component (d.closures (members names)) (members names) name ::
        d.collect names order := rfl

/-- A component lists each of its names once. -/
theorem nodup_of_mem_collect {order c : List String} (hc : c ∈ d.collect names order) :
    c.Nodup := by
  induction order with
  | nil => cases hc
  | cons name order ih =>
    rw [collect_cons] at hc
    split at hc
    case isTrue => exact ih hc
    case isFalse =>
      rcases List.mem_cons.1 hc with rfl | hc
      · exact (nodup_members names).filter _
      · exact ih hc

theorem nodup_of_mem_components {c : List String} (hc : c ∈ d.components names) : c.Nodup :=
  nodup_of_mem_collect hc

section Collect

variable {order : List String} (horder : order ⊆ names)

include horder

/-- Every component collected is that of one of the names. -/
theorem exists_of_mem_collect {c : List String} (hc : c ∈ d.collect names order) :
    ∃ x ∈ order, ∀ y, y ∈ c ↔ y ∈ names ∧ d.Mutual x y := by
  induction order with
  | nil => cases hc
  | cons name order ih =>
    obtain ⟨hname, horder⟩ := List.cons_subset.1 horder
    rw [collect_cons] at hc
    split at hc
    case isTrue =>
      obtain ⟨x, hx, h⟩ := ih horder hc
      exact ⟨x, by simp [hx], h⟩
    case isFalse =>
      rcases List.mem_cons.1 hc with rfl | hc
      · exact ⟨name, by simp, fun y => mem_component hname⟩
      · obtain ⟨x, hx, h⟩ := ih horder hc
        exact ⟨x, by simp [hx], h⟩

/-- Every name is in a component collected. -/
theorem exists_mem_collect {x : String} (hx : x ∈ order) : ∃ c ∈ d.collect names order, x ∈ c := by
  induction order with
  | nil => cases hx
  | cons name order ih =>
    obtain ⟨hname, horder⟩ := List.cons_subset.1 horder
    rw [collect_cons]
    split
    case isTrue hfound =>
      rcases List.mem_cons.1 hx with rfl | hx
      · simpa using hfound
      · exact ih horder hx
    case isFalse =>
      rcases List.mem_cons.1 hx with rfl | hx
      · exact ⟨_, List.mem_cons_self, (mem_component hname).2 ⟨hname, .refl x⟩⟩
      · obtain ⟨c, hc, hx⟩ := ih horder hx
        exact ⟨c, List.mem_cons_of_mem _ hc, hx⟩

/-- A component stands at the place of its last name: what is collected after it comes from the
names after that one, and none of them is in the component. -/
theorem split_of_collect_eq {before after : List (List String)} {c : List String}
    (h : d.collect names order = before ++ c :: after) :
    ∃ pre x post, order = pre ++ x :: post ∧ after = d.collect names post ∧
      (∀ y, y ∈ c ↔ y ∈ names ∧ d.Mutual x y) ∧ ∀ y ∈ post, ¬ d.Mutual x y := by
  induction order generalizing before with
  | nil =>
    rw [collect, List.foldr_nil] at h
    simp at h
  | cons name order ih =>
    obtain ⟨hname, horder⟩ := List.cons_subset.1 horder
    rw [collect_cons] at h
    split at h
    case isTrue =>
      obtain ⟨pre, x, post, rfl, hafter, hc, hpost⟩ := ih horder h
      exact ⟨name :: pre, x, post, rfl, hafter, hc, hpost⟩
    case isFalse hfound =>
      cases before with
      | nil =>
        obtain ⟨rfl, rfl⟩ := List.cons.inj h
        refine ⟨[], name, order, rfl, rfl, fun y => mem_component hname, fun y hy hmutual => ?_⟩
        obtain ⟨c, hc, hyc⟩ := exists_mem_collect horder hy
        obtain ⟨z, -, hz⟩ := exists_of_mem_collect horder hc
        have hin : name ∈ c := (hz name).2 ⟨hname, ((hz y).1 hyc).2.trans hmutual.symm⟩
        exact hfound (by simpa using ⟨c, hc, hin⟩)
      | cons b before =>
        obtain ⟨rfl, htail⟩ := List.cons.inj h
        obtain ⟨pre, x, post, rfl, hafter, hc, hpost⟩ := ih horder htail
        exact ⟨name :: pre, x, post, rfl, hafter, hc, hpost⟩

end Collect

/-- A name that depends on nothing is a component by itself. -/
theorem components_singleton {x : String} (h : d.on x = []) : d.components [x] = [[x]] := by
  have horder : d.order [x] = [x] := by
    simp [order, DepthFirst.postorder, DepthFirst.search, depth, DepthFirst.visit, h,
      DepthFirst.Search.start]
  have hcomponent : component (d.closures (members [x])) (members [x]) x = [x] :=
    List.filter_eq_self.2 fun y hy => by
      obtain rfl : y = x := by simpa [mem_members] using hy
      exact (List.mem_filter.1 ((mem_component (d := d) (by simp)).2 ⟨by simp, .refl y⟩)).2
  show d.collect [x] (d.order [x]) = [[x]]
  rw [horder, collect_cons, hcomponent]
  rfl

/-! ### The order of the components -/

/-- A list of components of `names`: they hold all names and are disjoint, and what a name depends
on is in its own component or in one before. -/
structure ComponentsOf (d : Dependencies) (names : List String) (components : List (List String)) :
    Prop where
  mem (x : String) : (∃ c ∈ components, x ∈ c) ↔ x ∈ names
  disjoint {before after : List (List String)} {c : List String} {x : String} :
    components = before ++ c :: after → x ∈ c → ∀ c' ∈ after, x ∉ c'
  depends {before after : List (List String)} {c : List String} {x y : String} :
    components = before ++ c :: after → x ∈ c → y ∈ d.on x → y ∈ c ∨ ∃ b ∈ before, y ∈ b

namespace ComponentsOf

theorem mem_flatten {components : List (List String)} (h : ComponentsOf d names components)
    {x : String} : x ∈ components.flatten ↔ x ∈ names := by
  rw [List.mem_flatten]
  exact h.mem x

/-- A name of a component is in none of those before. -/
theorem not_mem_before {before after : List (List String)} {c : List String}
    (h : ComponentsOf d names (before ++ c :: after)) {x : String} (hx : x ∈ c) :
    x ∉ before.flatten := by
  intro hmem
  obtain ⟨b, hb, hxb⟩ := List.mem_flatten.1 hmem
  obtain ⟨pre, post, rfl⟩ := List.append_of_mem hb
  have happend : (pre ++ b :: post) ++ c :: after = pre ++ b :: (post ++ c :: after) := by simp
  exact h.disjoint happend hxb c (by simp) hx

/-- What a name depends on outside of its component comes before it; what is none of the names comes
nowhere. -/
theorem before_or_outside {before after : List (List String)} {c : List String} {x y : String}
    (h : ComponentsOf d names (before ++ c :: after)) (hx : x ∈ c) (hout : y ∉ c)
    (hy : y ∈ names → y ∈ d.on x) :
    y ∈ before.flatten ∨ y ∉ names ∧ y ∉ before.flatten := by
  by_cases hname : y ∈ names
  · obtain ⟨b, hb, hyb⟩ := (h.depends rfl hx (hy hname)).resolve_left hout
    exact .inl (List.mem_flatten.2 ⟨b, hb, hyb⟩)
  · refine .inr ⟨hname, fun hbefore => hname (h.mem_flatten.1 ?_)⟩
    rw [List.flatten_append]
    exact List.mem_append_left _ hbefore

end ComponentsOf

theorem reaches_reverse : Reaches (fun x => (d.on x).reverse) = Reaches d.on := by
  simp [Reaches]

section Order

variable (hd : ∀ x y, y ∈ d.on x → y ∈ names)

include hd

theorem mem_of_reaches {x y : String} (hx : x ∈ names) (h : Reaches d.on x y) : y ∈ names := by
  cases h with
  | refl => exact hx
  | tail _ h => exact hd _ _ h

theorem mem_order {x : String} : x ∈ d.order names ↔ x ∈ names := by
  rw [order, DepthFirst.mem_postorder (U := d.edges.keys)
    (fun x y h => mem_keys_of_on (List.mem_reverse.1 h)) (by simp [depth]), reaches_reverse]
  constructor
  · rintro ⟨y, hy, h⟩
    exact mem_of_reaches hd hy h
  · exact fun hx => ⟨x, hx, .refl⟩

theorem componentsOf_components : ComponentsOf d names (d.components names) := by
  have horder : d.order names ⊆ names := fun x => (mem_order hd).1
  refine ⟨fun x => ⟨?_, fun hx => ?_⟩, ?_, ?_⟩
  · rintro ⟨c, hc, hx⟩
    obtain ⟨y, -, hy⟩ := exists_of_mem_collect horder hc
    exact ((hy x).1 hx).1
  · exact exists_mem_collect horder ((mem_order hd).2 hx)
  · intro before after c x h hx c' hc' hx'
    obtain ⟨pre, r, post, heq, rfl, hc, hpost⟩ := split_of_collect_eq horder h
    have hpost' : post ⊆ names := fun z hz => horder (by simp [heq, hz])
    obtain ⟨q, hq, hc'⟩ := exists_of_mem_collect hpost' hc'
    exact hpost q hq (((hc x).1 hx).2.trans ((hc' x).1 hx').2.symm)
  · intro before after c x y h hx hy
    obtain ⟨pre, r, post, heq, rfl, hc, hpost⟩ := split_of_collect_eq horder h
    have hpost' : post ⊆ names := fun z hz => horder (by simp [heq, hz])
    obtain ⟨hxnames, hrx⟩ := (hc x).1 hx
    have hynames := hd x y hy
    have hry : Reaches d.on r y := hrx.1.tail hy
    by_contra hnot
    rw [not_or] at hnot
    have hback {z : String} (hyz : Reaches d.on y z) : ¬ Reaches d.on z r := fun hzr =>
      hnot.1 ((hc y).2 ⟨hynames, hry, hyz.trans hzr⟩)
    -- no name that `y` leads to comes after `r` in the order
    have hordered {u v : String} (hu : u ∈ pre ∨ u = r) (huv : v ∈ d.on u) :
        v ∈ pre ∨ v = r ∨ Reaches d.on v r := by
      have := DepthFirst.ordered_postorder (U := d.edges.keys)
        (fun x y h => mem_keys_of_on (List.mem_reverse.1 h)) (by simp [depth]) names heq hu
        (List.mem_reverse.2 huv)
      rwa [reaches_reverse] at this
    have hpre {z : String} (hyz : Reaches d.on y z) : z ∈ pre := by
      induction hyz with
      | refl =>
        have hxpre : x ∈ pre ∨ x = r := by
          have hx := (mem_order hd).2 hxnames
          rw [heq, List.mem_append, List.mem_cons] at hx
          exact hx.imp_right (Or.resolve_right · fun h => hpost x h hrx)
        rcases hordered hxpre hy with h | rfl | h
        · exact h
        · exact absurd .refl (hback .refl)
        · exact absurd h (hback .refl)
      | tail hyz hz ih =>
        rcases hordered (.inl ih) hz with h | rfl | h
        · exact h
        · exact absurd .refl (hback (hyz.tail hz))
        · exact absurd h (hback (hyz.tail hz))
    obtain ⟨c', hc', hy'⟩ : ∃ c' ∈ d.components names, y ∈ c' :=
      exists_mem_collect horder ((mem_order hd).2 hynames)
    rw [h, List.mem_append, List.mem_cons] at hc'
    rcases hc' with hc' | rfl | hc'
    · exact hnot.2 ⟨c', hc', hy'⟩
    · exact hnot.1 hy'
    · obtain ⟨q, hq, hmutual⟩ := exists_of_mem_collect hpost' hc'
      have hnodup : (d.order names).Nodup := DepthFirst.nodup_postorder (U := d.edges.keys)
        (fun x y h => mem_keys_of_on (List.mem_reverse.1 h)) (by simp [depth]) names
      rw [heq, List.nodup_append] at hnodup
      exact hnodup.2.2 q (hpre ((hmutual y).1 hy').2.2) q (by simp [hq]) rfl

theorem exists_mutual_of_mem_components {c : List String} (hc : c ∈ d.components names) :
    ∃ x ∈ names, ∀ y, y ∈ c ↔ y ∈ names ∧ d.Mutual x y := by
  obtain ⟨x, hx, h⟩ := exists_of_mem_collect (fun x => (mem_order hd).1) hc
  exact ⟨x, (mem_order hd).1 hx, h⟩

end Order

/-! ### Names in another order -/

/-- Dependencies do not depend on the order of the names. -/
theorem ofKernel_perm (k : Kernel) {names' : List String} (hperm : names'.Perm names) :
    ofKernel k names' = ofKernel k names := by
  have hset : (Std.ExtTreeSet.ofList names' : NameSet) = .ofList names := by
    refine Std.ExtTreeSet.ext_mem fun x => ?_
    simp [Std.ExtTreeSet.mem_ofList, hperm.mem_iff]
  unfold ofKernel
  congr 1
  refine Std.ExtTreeMap.ext_getElem? fun x => ?_
  simp only [getElem?_ofList_map, hset, hperm.mem_iff]

/-- Where elements are distinct, only one of two stands before the other. -/
theorem eq_of_pair_sublist {α : Type} {xs : List α} (h : xs.Nodup) {x y : α}
    (hxy : [x, y].Sublist xs) (hyx : [y, x].Sublist xs) : x = y := by
  induction xs with
  | nil => cases hxy
  | cons z xs ih =>
    obtain ⟨hz, hxs⟩ := List.nodup_cons.1 h
    rcases List.cons_sublist_cons'.1 hxy with hleft | ⟨rfl, -⟩
    · rcases List.cons_sublist_cons'.1 hyx with hright | ⟨rfl, -⟩
      · exact ih hxs hleft hright
      · exact absurd (hleft.subset (by simp)) hz
    · rcases List.cons_sublist_cons'.1 hyx with hright | ⟨rfl, -⟩
      · exact absurd (hright.subset (by simp)) hz
      · rfl

/-- A component is a part of the members, in their order. -/
theorem sublist_members_of_mem_components {c : List String} (hc : c ∈ d.components names) :
    c.Sublist (members names) := by
  have hcollect (order : List String) (hc : c ∈ d.collect names order) :
      c.Sublist (members names) := by
    induction order with
    | nil => cases hc
    | cons name order ih =>
      rw [collect_cons] at hc
      split at hc
      case isTrue => exact ih hc
      case isFalse =>
        rcases List.mem_cons.1 hc with rfl | hc
        · exact List.filter_sublist
        · exact ih hc
  exact hcollect _ hc

/-- The members of a component keep the order of `names`. -/
theorem sublist_of_mem_components (hnodup : names.Nodup) {c : List String}
    (hc : c ∈ d.components names) : c.Sublist names := by
  have hmembers : members names = names := by
    rw [members, Kernel.eraseDups_of_nodup (List.nodup_reverse.2 hnodup), List.reverse_reverse]
  exact hmembers ▸ sublist_members_of_mem_components hc

/-- A component stays a component where names change places, as long as those that reach one another
keep their order. -/
theorem mem_components_of_perm {names' : List String} (hd : ∀ x y, y ∈ d.on x → y ∈ names)
    (hnodup : names.Nodup) (hperm : names'.Perm names)
    (hkept : ∀ x y, d.Mutual x y → [x, y].Sublist names' → [x, y].Sublist names) {c : List String}
    (hc : c ∈ d.components names') : c ∈ d.components names := by
  have hd' (x y : String) (hy : y ∈ d.on x) : y ∈ names' := hperm.mem_iff.2 (hd x y hy)
  have hnodup' : names'.Nodup := hperm.nodup_iff.2 hnodup
  obtain ⟨x, hx, hmem⟩ := exists_mutual_of_mem_components hd' hc
  obtain ⟨c', hc', hxc'⟩ := ((componentsOf_components hd).mem x).2 (hperm.mem_iff.1 hx)
  obtain ⟨z, -, hmem'⟩ := exists_mutual_of_mem_components hd hc'
  have hzx : d.Mutual z x := ((hmem' x).1 hxc').2
  have hsame (y : String) : y ∈ c ↔ y ∈ c' := by
    rw [hmem, hmem', hperm.mem_iff]
    exact and_congr_right fun _ => ⟨hzx.trans, hzx.symm.trans⟩
  -- both list the same names, in the order of `names`
  have horder : c.Pairwise fun a b => [a, b].Sublist names := by
    rw [List.pairwise_iff_forall_sublist]
    intro a b hab
    have ha : d.Mutual x a := ((hmem a).1 (hab.subset (by simp))).2
    have hb : d.Mutual x b := ((hmem b).1 (hab.subset (by simp))).2
    exact hkept a b (ha.symm.trans hb) (hab.trans (sublist_of_mem_components hnodup' hc))
  have horder' : c'.Pairwise fun a b => [a, b].Sublist names := by
    rw [List.pairwise_iff_forall_sublist]
    exact fun hab => hab.trans (sublist_of_mem_components hnodup hc')
  have hcperm : c.Perm c' :=
    (List.perm_ext_iff_of_nodup (nodup_of_mem_components hc) (nodup_of_mem_components hc')).2 hsame
  rwa [hcperm.eq_of_pairwise (fun a b _ _ => eq_of_pair_sublist hnodup) horder horder']

/-! ### More names -/

/-- A part of a list without repetitions is known by its elements. -/
theorem eq_of_sublist_of_mem {α : Type} {xs ys zs : List α} (hzs : zs.Nodup) (hxs : xs.Sublist zs)
    (hys : ys.Sublist zs) (hmem : ∀ x, x ∈ xs ↔ x ∈ ys) : xs = ys := by
  have hpairs {ws : List α} (hws : ws.Sublist zs) : ws.Pairwise fun a b => [a, b].Sublist zs :=
    List.pairwise_iff_forall_sublist.2 fun hab => hab.trans hws
  have hperm : xs.Perm ys :=
    (List.perm_ext_iff_of_nodup (hzs.sublist hxs) (hzs.sublist hys)).2 hmem
  exact hperm.eq_of_pairwise (fun a b _ _ => eq_of_pair_sublist hzs) (hpairs hxs) (hpairs hys)

/-- Where names are added on which none of the others depends, a component holds only such names, or
is one that was there before. -/
theorem mem_components_of_filter {d' : Dependencies} {names' : List String} {p : String → Bool}
    (hd : ∀ x y, y ∈ d.on x → y ∈ names) (hd' : ∀ x y, y ∈ d'.on x → y ∈ names')
    (hnames : names'.filter p = names) (hclosed : ∀ x y, p x = true → y ∈ d.on x → p y = true)
    (hsame : ∀ x, p x = true → d'.on x = d.on x) {c : List String}
    (hc : c ∈ d'.components names') : (∀ x ∈ c, p x = false) ∨ c ∈ d.components names := by
  obtain ⟨z, hz, hmem⟩ := exists_mutual_of_mem_components hd' hc
  have hreaches {x y : String} (hx : p x = true) : Reaches d'.on x y ↔ Reaches d.on x y :=
    DepthFirst.reaches_congr hclosed hsame hx
  have hkept {x y : String} (hx : p x = true) (h : Reaches d'.on x y) : p y = true :=
    ((hreaches hx).1 h).mem_of_closed hclosed hx
  by_cases hpz : p z = true
  · obtain ⟨c', hc', hzc'⟩ := ((componentsOf_components hd).mem z).2
      (hnames ▸ List.mem_filter.2 ⟨hz, hpz⟩)
    obtain ⟨w, -, hmem'⟩ := exists_mutual_of_mem_components hd hc'
    have hwz : d.Mutual w z := ((hmem' z).1 hzc').2
    have hlists (y : String) : y ∈ c ↔ y ∈ c' := by
      rw [hmem, hmem', ← hnames, List.mem_filter]
      constructor
      · rintro ⟨hy, hzy, hyz⟩
        have hpy := hkept hpz hzy
        exact ⟨⟨hy, hpy⟩, hwz.trans ⟨(hreaches hpz).1 hzy, (hreaches hpy).1 hyz⟩⟩
      · rintro ⟨⟨hy, hpy⟩, hwy⟩
        obtain ⟨hzy, hyz⟩ := hwz.symm.trans hwy
        exact ⟨hy, (hreaches hpz).2 hzy, (hreaches hpy).2 hyz⟩
    have hsublist : c'.Sublist (members names') := by
      refine (sublist_members_of_mem_components hc').trans ?_
      rw [← hnames, members_filter]
      exact List.filter_sublist
    rw [eq_of_sublist_of_mem (nodup_members names') (sublist_members_of_mem_components hc) hsublist
      hlists]
    exact .inr hc'
  · refine .inl fun x hx => ?_
    rw [← Bool.not_eq_true]
    exact fun hpx => hpz (hkept hpx ((hmem x).1 hx).2.2)

end KernelTyping.Dependencies
