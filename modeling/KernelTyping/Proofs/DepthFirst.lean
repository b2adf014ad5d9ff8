import KernelTyping.DepthFirst
import Mathlib.Data.List.Nodup
import Mathlib.Data.List.Perm.Subperm
import Mathlib.Logic.Relation

/-!
# KernelTyping.Proofs.DepthFirst — what a depth-first search finds, and in which order

* `mem_reachable`: the names that a search enters are those that can be reached.
* `ordered_postorder`: when a name is left, all that the names left so far lead to has been left, or
  leads back to it.

The invariant of a search below a path of names that are entered and not yet left is `Sound`.
-/

namespace KernelTyping.DepthFirst

variable {next : String → List String}

/-- The second name can be reached from the first. -/
def Reaches (next : String → List String) : String → String → Prop :=
  Relation.ReflTransGen fun a b => b ∈ next a

/-- What a name in a closed set leads to is in the set. -/
theorem Reaches.mem_of_closed {P : String → Prop} (hclosed : ∀ x y, P x → y ∈ next x → P y)
    {x y : String} (h : Reaches next x y) (hx : P x) : P y := by
  induction h with
  | refl => exact hx
  | tail _ hz ih => exact hclosed _ _ ih hz

/-- From a name in a closed set on which two graphs agree, the same names can be reached. -/
theorem reaches_congr {next' : String → List String} {P : String → Prop}
    (hclosed : ∀ x y, P x → y ∈ next x → P y) (hsame : ∀ x, P x → next' x = next x)
    {x y : String} (hx : P x) : Reaches next' x y ↔ Reaches next x y := by
  constructor
  · intro h
    induction h with
    | refl => exact .refl
    | tail _ hz ih => exact ih.tail (hsame _ (ih.mem_of_closed hclosed hx) ▸ hz)
  · intro h
    induction h with
    | refl => exact .refl
    | tail hy hz ih =>
      have hy : Reaches next x _ := hy
      exact ih.tail ((hsame _ (hy.mem_of_closed hclosed hx)).symm ▸ hz)

/-- Whatever the names of a list lead to is in the list, or leads back to its head. -/
def Settled (next : String → List String) (names : List String) : Prop :=
  ∀ y ∈ names, ∀ z ∈ next y, z ∈ names ∨ ∃ head ∈ names.head?, Reaches next z head

/-- A search below a path: what is entered has been left or is on the path, and whatever has been
left leads to such names only. -/
structure Sound (next : String → List String) (path : List String) (s : Search) : Prop where
  mem_entered (x : String) : x ∈ s.entered ↔ x ∈ s.left ∨ x ∈ path
  disjoint : ∀ x ∈ s.left, x ∉ path
  nodup : s.left.Nodup
  closed : ∀ x ∈ s.left, ∀ y ∈ next x, y ∈ s.left ∨ y ∈ path
  settled : ∀ names, names <:+ s.left → Settled next names

theorem sound_start : Sound next [] .start where
  mem_entered x := by simp [Search.start]
  disjoint x h := by cases h
  nodup := List.nodup_nil
  closed x h := by cases h
  settled names h := by
    obtain rfl := List.suffix_nil.1 h
    intro y hy
    cases hy

/-- The path to a name: all on it lead to the name, they differ, and the rest of the depth has room
for those names in `U`, the ones that lead on, that are not on it. -/
structure PathTo (next : String → List String) (U : List String) (depth : Nat)
    (path : List String) (name : String) : Prop where
  reaches : ∀ p ∈ path, Reaches next p name
  nodup : path.Nodup
  subset : path ⊆ U
  room : U.length < path.length + depth

/-- What a visit does to a search below a path. -/
structure Visited (next : String → List String) (path : List String) (s s' : Search)
    (names : List String) : Prop where
  sound : Sound next path s'
  suffix : s.left <:+ s'.left
  entered : ∀ name ∈ names, name ∈ s'.entered
  reached : ∀ x ∈ s'.left, x ∈ s.left ∨ ∃ name ∈ names, Reaches next name x

/-- A fold of visits is a visit of all names, if each visit is one. -/
theorem visited_foldl {visit : Search → String → Search} {path : List String} {names : List String}
    (hvisit : ∀ s, Sound next path s → ∀ name ∈ names,
      Visited next path s (visit s name) [name]) {s : Search} (hs : Sound next path s) :
    Visited next path s (names.foldl visit s) names := by
  induction names generalizing s with
  | nil => exact ⟨hs, List.suffix_rfl, by simp, fun x hx => .inl hx⟩
  | cons name names ih =>
    have hhead := hvisit s hs name (by simp)
    have htail := ih (fun s hs name hname => hvisit s hs name (by simp [hname])) hhead.sound
    refine ⟨htail.sound, hhead.suffix.trans htail.suffix, ?_, fun x hx => ?_⟩
    · intro other hother
      rcases List.mem_cons.1 hother with rfl | hother
      · have := hhead.entered other (by simp)
        rw [hhead.sound.mem_entered] at this
        rw [List.foldl_cons, htail.sound.mem_entered]
        exact this.imp (fun h => htail.suffix.subset h) id
      · exact htail.entered other hother
    · rcases htail.reached x hx with hx | ⟨other, hother, hx⟩
      · rcases hhead.reached x hx with hx | ⟨other, hother, hx⟩
        · exact .inl hx
        · exact .inr ⟨other, by simp_all, hx⟩
      · exact .inr ⟨other, by simp [hother], hx⟩

/-- The search below a name that is entered, once that name is left. -/
theorem Sound.leave {path : List String} {name : String} {s : Search}
    (hs : Sound next (name :: path) s) (hname : name ∉ path)
    (hpath : ∀ p ∈ path, Reaches next p name) (hnext : ∀ y ∈ next name, y ∈ s.entered) :
    Sound next path { s with left := name :: s.left } where
  mem_entered x := by
    rw [hs.mem_entered]
    simp only [List.mem_cons]
    tauto
  disjoint x hx := by
    rcases List.mem_cons.1 hx with rfl | hx
    · exact hname
    · exact fun hp => hs.disjoint x hx (List.mem_cons_of_mem _ hp)
  nodup := List.nodup_cons.2 ⟨fun h => hs.disjoint name h (by simp), hs.nodup⟩
  closed x hx y hy := by
    have h : y ∈ s.left ∨ y ∈ name :: path := by
      rcases List.mem_cons.1 hx with rfl | hx
      · exact (hs.mem_entered y).1 (hnext y hy)
      · exact hs.closed x hx y hy
    simp only [List.mem_cons] at h ⊢
    tauto
  settled names hnames := by
    rcases List.suffix_cons_iff.1 hnames with rfl | hnames
    · intro x hx y hy
      have h : y ∈ s.left ∨ y ∈ name :: path := by
        rcases List.mem_cons.1 hx with rfl | hx
        · exact (hs.mem_entered y).1 (hnext y hy)
        · exact hs.closed x hx y hy
      -- what is still entered above the name leads to it
      rcases h with h | h
      · exact .inl (List.mem_cons_of_mem _ h)
      · rcases List.mem_cons.1 h with rfl | h
        · exact .inl (by simp)
        · exact .inr ⟨name, by simp, hpath y h⟩
    · exact hs.settled names hnames

theorem Sound.enter {path : List String} {name : String} {s : Search} (hs : Sound next path s)
    (hname : name ∉ s.entered) :
    Sound next (name :: path) { s with entered := s.entered.insert name } where
  mem_entered x := by
    simp only [Std.ExtTreeSet.mem_insert, hs.mem_entered, List.mem_cons,
      Std.LawfulEqOrd.compare_eq_iff_eq]
    tauto
  disjoint x hx := by
    rw [List.mem_cons, not_or]
    refine ⟨?_, hs.disjoint x hx⟩
    rintro rfl
    exact hname ((hs.mem_entered x).2 (.inl hx))
  nodup := hs.nodup
  closed x hx y hy := (hs.closed x hx y hy).imp id (List.mem_cons_of_mem _)
  settled := hs.settled

/-- A visit with room for its path keeps the invariant. -/
theorem visited_visit {U : List String} (hU : ∀ x y, y ∈ next x → x ∈ U) {depth : Nat}
    {path : List String} {name : String} (hpath : PathTo next U depth path name) {s : Search}
    (hs : Sound next path s) : Visited next path s (visit next depth s name) [name] := by
  induction depth generalizing path name s with
  | zero =>
    have := (hpath.nodup.subperm hpath.subset).length_le
    have := hpath.room
    omega
  | succ depth ih =>
    rw [visit]
    split
    case isTrue hentered =>
      exact ⟨hs, List.suffix_rfl, by simpa using hentered, fun x hx => .inl hx⟩
    case isFalse hentered =>
      have hname : name ∉ s.entered := by simpa using hentered
      have hnot : name ∉ path := fun h => hname ((hs.mem_entered name).2 (.inr h))
      have hbelow {c : String} (hc : c ∈ next name) : PathTo next U depth (name :: path) c := by
        refine ⟨fun p hp => ?_, List.nodup_cons.2 ⟨hnot, hpath.nodup⟩, ?_, ?_⟩
        · rcases List.mem_cons.1 hp with rfl | hp
          · exact .single hc
          · exact (hpath.reaches p hp).tail hc
        · exact List.cons_subset.2 ⟨hU name c hc, hpath.subset⟩
        · have := hpath.room
          rw [List.length_cons]
          omega
      have hinside := visited_foldl (fun s hs c hc => ih (hbelow hc) hs) (hs.enter hname)
      refine ⟨hinside.sound.leave hnot hpath.reaches hinside.entered, ?_, ?_, fun x hx => ?_⟩
      · exact hinside.suffix.trans (List.suffix_cons _ _)
      · intro other hother
        obtain rfl := List.mem_singleton.1 hother
        exact (hinside.sound.mem_entered _).2 (.inr (by simp))
      · rcases List.mem_cons.1 hx with rfl | hx
        · exact .inr ⟨_, by simp, .refl⟩
        · rcases hinside.reached x hx with hx | ⟨c, hc, hx⟩
          · exact .inl hx
          · exact .inr ⟨name, by simp, .head hc hx⟩

/-! ### A whole search -/

section Search

variable {U : List String} (hU : ∀ x y, y ∈ next x → x ∈ U) {depth : Nat}
  (hdepth : U.length < depth) (starts : List String)

include hU hdepth

theorem visited_search : Visited next [] .start (search next depth starts) starts :=
  visited_foldl (fun _ hs _ _ => visited_visit hU ⟨by simp, List.nodup_nil, by simp, by simpa⟩ hs)
    sound_start

theorem mem_search_left (x : String) :
    x ∈ (search next depth starts).left ↔ ∃ name ∈ starts, Reaches next name x := by
  have hvisited := visited_search hU hdepth starts
  have hleft (y : String) : y ∈ (search next depth starts).entered ↔
      y ∈ (search next depth starts).left := by simp [hvisited.sound.mem_entered]
  constructor
  · intro hx
    simpa [Search.start] using hvisited.reached x hx
  · rintro ⟨name, hname, hx⟩
    induction hx with
    | refl => exact (hleft name).1 (hvisited.entered name hname)
    | tail _ hy ih => simpa using hvisited.sound.closed _ ih _ hy

/-- A search enters what can be reached. -/
theorem mem_reachable (x : String) :
    x ∈ reachable next depth starts ↔ ∃ name ∈ starts, Reaches next name x := by
  rw [reachable, (visited_search hU hdepth starts).sound.mem_entered,
    mem_search_left hU hdepth starts]
  simp

theorem mem_postorder (x : String) :
    x ∈ postorder next depth starts ↔ ∃ name ∈ starts, Reaches next name x := by
  rw [postorder, List.mem_reverse, mem_search_left hU hdepth starts]

theorem nodup_postorder : (postorder next depth starts).Nodup :=
  List.nodup_reverse.2 (visited_search hU hdepth starts).sound.nodup

/-- When a name is left, whatever the names left so far lead to has been left, or leads back. -/
theorem ordered_postorder {before after : List String} {x : String}
    (h : postorder next depth starts = before ++ x :: after) {y z : String}
    (hy : y ∈ before ∨ y = x) (hz : z ∈ next y) : z ∈ before ∨ z = x ∨ Reaches next z x := by
  have hleft : (search next depth starts).left = after.reverse ++ x :: before.reverse := by
    rw [postorder] at h
    rw [← List.reverse_reverse (search next depth starts).left, h]
    simp
  have hsettled := (visited_search hU hdepth starts).sound.settled (x :: before.reverse)
    ⟨after.reverse, hleft.symm⟩
  rcases hsettled y (by simp [hy.symm]) z hz with hz | ⟨head, hhead, hz⟩
  · simp only [List.mem_cons, List.mem_reverse] at hz
    tauto
  · obtain rfl : x = head := by simpa using hhead
    exact .inr (.inr hz)

end Search

end KernelTyping.DepthFirst
