import FlureeDb.Lib.SortedList

/-!
A trie in an arena: nodes in the order they were made, the root first, each with the indices of
its children. An index has one path from the root. So a trie is a table of keys, and the longest
match of a text is the longest of its beginnings in the table.
-/

namespace FlureeDb.Lib

open List Option

structure TrieNode (α β : Type) where
  code : Option β
  children : List (α × ℕ)

structure PrefixTrie (α β : Type) where
  nodes : List (TrieNode α β)

variable {i : ℕ}

namespace PrefixTrie

variable {α β : Type} [DecidableEq α]

def new : PrefixTrie α β := ⟨[⟨none, []⟩]⟩

variable (trie : PrefixTrie α β)

def codeAt (i : ℕ) : Option β :=
  trie.nodes[i]?.bind TrieNode.code

def child (i : ℕ) (a : α) : Option ℕ :=
  trie.nodes[i]?.bind fun node => (node.children.find? fun entry => entry.1 = a).map Prod.snd

/-- The walk along a text from a node at some depth, with the deepest code so far. -/
def matchFrom (trie : PrefixTrie α β) : ℕ → ℕ → Option (β × ℕ) → List α → Option (β × ℕ)
  | _, _, best, [] => best
  | i, depth, best, a :: text =>
    match trie.child i a with
    | none => best
    | some j =>
      let best := match trie.codeAt j with
        | some code => some (code, depth + 1)
        | none => best
      matchFrom trie j (depth + 1) best text

def longestMatch (text : List α) : Option (β × ℕ) :=
  trie.matchFrom 0 0 none text

def walk (trie : PrefixTrie α β) : ℕ → List α → Option ℕ
  | i, [] => some i
  | i, a :: key => (trie.child i a).bind fun j => walk trie j key

def find (key : List α) : Option β := (trie.walk 0 key).bind trie.codeAt

/-- The last letter of a text counts if the whole text is in the table. -/
theorem matchFrom_concat (i depth : ℕ) (best : Option (β × ℕ)) (text : List α) (a : α) :
    trie.matchFrom i depth best (text ++ [a]) =
      (((trie.walk i (text ++ [a])).bind trie.codeAt).map
        fun code => (code, depth + (text.length + 1))).or (trie.matchFrom i depth best text) := by
  induction text generalizing i depth best with
  | nil =>
    simp only [nil_append, matchFrom, walk]
    cases trie.child i a with
    | none => rfl
    | some j => cases hcode : trie.codeAt j <;> simp [hcode]
  | cons b text ih =>
    simp only [cons_append, matchFrom, walk]
    cases trie.child i b with
    | none => rfl
    | some j =>
      simp only [ih, bind_some, length_cons]
      rw [Nat.add_assoc depth, Nat.add_comm 1]

/-- The longest nonempty beginning of the text that is in the table. -/
theorem longestMatch_eq_some {trie : PrefixTrie α β} {text : List α} {code : β} {n : ℕ} :
    trie.longestMatch text = some (code, n) ↔
      0 < n ∧ n ≤ text.length ∧ trie.find (text.take n) = some code ∧
        ∀ m, n < m → m ≤ text.length → trie.find (text.take m) = none := by
  induction text using reverseRecOn with
  | nil =>
    refine iff_of_false (by simp [longestMatch, matchFrom]) fun h => ?_
    exact absurd h.2.1 (not_le.mpr h.1)
  | append_singleton text a ih =>
    have hwhole : trie.longestMatch (text ++ [a]) = ((trie.find (text ++ [a])).map
        fun code => (code, text.length + 1)).or (trie.longestMatch text) := by
      rw [longestMatch, matchFrom_concat, Nat.zero_add]
      rfl
    have hfront : ∀ m ≤ text.length, (text ++ [a]).take m = text.take m :=
      fun m hm => take_append_of_le_length hm
    have hall : (text ++ [a]).take (text.length + 1) = text ++ [a] :=
      take_of_length_le (by simp)
    rw [hwhole, length_append, length_singleton]
    cases hfind : trie.find (text ++ [a]) with
    | some c =>
      rw [map_some, some_or]
      constructor
      · rintro ⟨⟩
        exact ⟨by omega, le_rfl, by rw [hall, hfind], fun m hm hle => absurd hle (by omega)⟩
      · rintro ⟨hpos, hle, hcode, hlast⟩
        rcases hle.lt_or_eq with hlt | rfl
        · have hnone := hlast _ hlt le_rfl
          rw [hall, hfind] at hnone
          cases hnone
        · rw [hall, hfind] at hcode
          rw [some.inj hcode]
    | none =>
      rw [map_none, none_or, ih]
      constructor
      · rintro ⟨hpos, hle, hcode, hlast⟩
        refine ⟨hpos, by omega, by rwa [hfront n hle], fun m hm hmle => ?_⟩
        rcases hmle.lt_or_eq with hlt | rfl
        · rw [hfront m (by omega)]
          exact hlast m hm (by omega)
        · rw [hall, hfind]
      · rintro ⟨hpos, hle, hcode, hlast⟩
        rcases hle.lt_or_eq with hlt | rfl
        · rw [hfront n (by omega)] at hcode
          refine ⟨hpos, by omega, hcode, fun m hm hmle => ?_⟩
          rw [← hfront m hmle]
          exact hlast m hm (by omega)
        · rw [hall, hfind] at hcode
          cases hcode

/-! ### Paths -/

structure Spells (trie : PrefixTrie α β) (paths : List (List α)) : Prop where
  length : paths.length = trie.nodes.length
  root : paths[0]? = some []
  nodup : paths.Nodup
  closed : ∀ {path : List α} {a : α}, path ++ [a] ∈ paths → path ∈ paths
  child_iff : ∀ {i : ℕ} {path : List α}, paths[i]? = some path → ∀ (a : α) (j : ℕ),
    trie.child i a = some j ↔ paths[j]? = some (path ++ [a])

omit [DecidableEq α] in
theorem index_unique {paths : List (List α)} (hnodup : paths.Nodup) {i j : ℕ} {path : List α}
    (hi : paths[i]? = some path) (hj : paths[j]? = some path) : i = j := by
  obtain ⟨hlt, -⟩ := List.getElem?_eq_some_iff.mp hi
  exact (List.getElem?_inj hlt hnodup).mp (hi.trans hj.symm)

section

variable {trie} {paths : List (List α)}

theorem Spells.closed_append (h : Spells trie paths) {path key : List α}
    (hmem : path ++ key ∈ paths) : path ∈ paths := by
  induction key using reverseRecOn with
  | nil => simpa using hmem
  | append_singleton key a ih =>
    rw [← append_assoc] at hmem
    exact ih (h.closed hmem)

theorem Spells.walk_iff (h : Spells trie paths) {path : List α} (hi : paths[i]? = some path)
    (key : List α) (j : ℕ) : trie.walk i key = some j ↔ paths[j]? = some (path ++ key) := by
  induction key generalizing i path with
  | nil =>
    rw [append_nil]
    constructor
    · intro hsame
      cases hsame
      exact hi
    · exact fun hj => congrArg some (index_unique h.nodup hi hj)
  | cons a key ih =>
    rw [walk, bind_eq_some_iff]
    constructor
    · rintro ⟨k, hchild, hwalk⟩
      have hk := (h.child_iff hi a k).mp hchild
      rw [(ih hk).mp hwalk, append_assoc]
      rfl
    · intro hj
      rw [append_cons] at hj
      obtain ⟨k, hk⟩ := mem_iff_getElem?.mp (h.closed_append (mem_of_getElem? hj))
      exact ⟨k, (h.child_iff hi a k).mpr hk, (ih hk).mpr hj⟩

theorem Spells.find_iff (h : Spells trie paths) (key : List α) (code : β) :
    trie.find key = some code ↔ ∃ j : ℕ, paths[j]? = some key ∧ trie.codeAt j = some code := by
  rw [find, bind_eq_some_iff]
  simp only [h.walk_iff h.root, nil_append]

theorem spells_new : Spells (new : PrefixTrie α β) [[]] where
  length := rfl
  root := rfl
  nodup := nodup_singleton _
  closed := by simp
  child_iff := by
    intro i path hi a j
    obtain ⟨rfl, rfl⟩ : i = 0 ∧ path = [] := by
      cases i with
      | zero => simpa using hi.symm
      | succ i => simp at hi
    refine iff_of_false (by simp [child, new]) ?_
    cases j with
    | zero => simp
    | succ j => simp

theorem find?_insertIdx_of_none {children : List (α × ℕ)} {a : α} {j n : ℕ}
    (hnone : children.find? (fun entry => entry.1 = a) = none) (hn : n ≤ children.length) (b : α) :
    ((children.insertIdx n (a, j)).find? fun entry => entry.1 = b).map Prod.snd =
      if b = a then some j else (children.find? fun entry => entry.1 = b).map Prod.snd := by
  induction children generalizing n with
  | nil =>
    obtain rfl : n = 0 := by simpa using hn
    by_cases hb : b = a
    · simp [hb]
    · simp [hb, Ne.symm hb]
  | cons entry children ih =>
    have hentry : entry.1 ≠ a := by
      intro heq
      simp [heq] at hnone
    have hrest : children.find? (fun entry => entry.1 = a) = none := by
      simpa [hentry] using hnone
    cases n with
    | zero =>
      by_cases hb : b = a
      · simp [hb]
      · simp [hb, Ne.symm hb]
    | succ n =>
      by_cases hb : entry.1 = b
      · have hne : b ≠ a := fun h => hentry (hb.trans h)
        simp [hb, hne]
      · simpa [hb] using ih hrest (by simpa using hn)

end

variable [LT α] [DecidableLT α]

def addChild (i : ℕ) (a : α) : PrefixTrie α β :=
  ⟨(trie.nodes ++ [⟨none, []⟩] : List (TrieNode α β)).modify i fun node => { node with
    children := node.children.insertIdx
      (partitionPoint (fun entry => decide (entry.1 < a)) node.children) (a, trie.nodes.length) }⟩

/-- The child for the next letter of a key, made if it is not there. -/
def descend (at_ : PrefixTrie α β × ℕ) (a : α) : PrefixTrie α β × ℕ :=
  match at_.1.child at_.2 a with
  | some j => (at_.1, j)
  | none => (at_.1.addChild at_.2 a, at_.1.nodes.length)

def setCode (i : ℕ) (code : β) : PrefixTrie α β :=
  ⟨trie.nodes.modify i fun node => { node with code := some code }⟩

def insert (key : List α) (code : β) : PrefixTrie α β :=
  let reached := key.foldl descend (trie, 0)
  reached.1.setCode reached.2 code

variable {trie} {paths : List (List α)}

theorem child_addChild {a : α} (hi : trie.child i a = none) (hlt : i < trie.nodes.length) (k : ℕ)
    (b : α) :
    (trie.addChild i a).child k b =
      if k = i ∧ b = a then some trie.nodes.length else trie.child k b := by
  obtain ⟨node, hnode⟩ : ∃ node, trie.nodes[i]? = some node := ⟨_, getElem?_eq_getElem hlt⟩
  simp only [child, addChild, getElem?_modify] at hi ⊢
  by_cases hk : k = i
  · subst hk
    rw [getElem?_append_left hlt, hnode]
    rw [hnode] at hi
    have hnone : node.children.find? (fun entry => entry.1 = a) = none := by simpa using hi
    have hpoint : partitionPoint (fun entry => decide (entry.1 < a)) node.children ≤
        node.children.length := (takeWhile_sublist _).length_le
    simpa using find?_insertIdx_of_none hnone hpoint b
  · rw [if_neg fun h => hk h.1]
    rcases lt_trichotomy k trie.nodes.length with hold | hnew | hbeyond
    · rw [getElem?_append_left hold]
      simp [Ne.symm hk]
    · subst hnew
      simp [Ne.symm hk]
    · rw [getElem?_eq_none (by simp; omega), getElem?_eq_none (by omega)]
      rfl

omit [DecidableEq α] in
theorem codeAt_addChild (i : ℕ) (a : α) (k : ℕ) : (trie.addChild i a).codeAt k = trie.codeAt k := by
  have hcode : ∀ node : Option (TrieNode α β), ((fun node => if i = k then { node with
      children := node.children.insertIdx
        (partitionPoint (fun entry => decide (entry.1 < a)) node.children) (a, trie.nodes.length) }
      else node) <$> node).bind TrieNode.code = node.bind TrieNode.code := by
    intro node
    cases node with
    | none => rfl
    | some node =>
      change TrieNode.code (ite _ _ _) = node.code
      split
      · rfl
      · rfl
  rw [codeAt, codeAt, addChild, getElem?_modify, hcode]
  rcases Nat.lt_trichotomy k trie.nodes.length with hold | hnew | hbeyond
  · rw [getElem?_append_left hold]
  · subst hnew
    simp
  · rw [getElem?_eq_none (by simp; omega), getElem?_eq_none (by omega)]

section

variable (h : Spells trie paths) {path : List α} (hi : paths[i]? = some path)

include h hi

theorem Spells.addChild {a : α} (hnone : trie.child i a = none) :
    Spells (trie.addChild i a) (paths ++ [path ++ [a]]) := by
  have hlt : i < trie.nodes.length := by
    rw [← h.length]
    exact (List.getElem?_eq_some_iff.mp hi).1
  have hfresh : path ++ [a] ∉ paths := by
    intro hmem
    obtain ⟨j, hj⟩ := mem_iff_getElem?.mp hmem
    rw [(h.child_iff hi a j).mpr hj] at hnone
    cases hnone
  have hindex : ∀ (k : ℕ) (q : List α), (paths ++ [path ++ [a]])[k]? = some q ↔
      paths[k]? = some q ∨ k = paths.length ∧ q = path ++ [a] := by
    intro k
    rw [getElem?_append]
    split
    next hk => simp [hk.ne]
    next hk =>
      rw [getElem?_eq_none (not_lt.mp hk)]
      by_cases hlast : k = paths.length
      · subst hlast
        simp [eq_comm]
      · rw [getElem?_eq_none (by simp; omega)]
        simp [hlast]
  refine ⟨?_, ?_, ?_, ?_, ?_⟩
  · simp [PrefixTrie.addChild, h.length]
  · exact (hindex 0 []).mpr (.inl h.root)
  · rw [nodup_append]
    refine ⟨h.nodup, nodup_singleton _, fun p hp q hq heq => ?_⟩
    rw [mem_singleton.mp hq] at heq
    exact hfresh (heq ▸ hp)
  · intro p b hmem
    rcases mem_append.mp hmem with hold | hnew
    · exact mem_append_left _ (h.closed hold)
    · obtain ⟨rfl, -⟩ := append_inj' (mem_singleton.mp hnew) rfl
      exact mem_append_left _ (mem_of_getElem? hi)
  · intro k p hk b j
    rw [child_addChild hnone hlt, hindex]
    rcases (hindex k p).mp hk with hold | ⟨rfl, rfl⟩
    · by_cases hnew : k = i ∧ b = a
      · obtain ⟨rfl, rfl⟩ := hnew
        obtain rfl : p = path := some.inj (hold.symm.trans hi)
        rw [if_pos ⟨rfl, rfl⟩]
        constructor
        · intro hj
          exact .inr ⟨by rw [h.length]; exact (some.inj hj).symm, rfl⟩
        · rintro (hj | ⟨rfl, -⟩)
          · exact absurd (mem_of_getElem? hj) hfresh
          · rw [h.length]
      · rw [if_neg hnew, h.child_iff hold]
        refine (or_iff_left ?_).symm
        rintro ⟨-, heq⟩
        obtain ⟨rfl, hb⟩ := append_inj' heq rfl
        exact hnew ⟨index_unique h.nodup hold hi, singleton_injective hb⟩
    · -- the new node has no children
      have hbeyond : trie.child paths.length b = none := by
        rw [child, getElem?_eq_none (by rw [h.length])]
        rfl
      rw [if_neg (by rw [h.length]; omega), hbeyond]
      refine iff_of_false (by simp) ?_
      rintro (hj | ⟨-, heq⟩)
      · exact hfresh (h.closed (mem_of_getElem? hj))
      · simp at heq

/-- One letter down. No code changes. -/
theorem Spells.descend (a : α) :
    ∃ paths', Spells (PrefixTrie.descend (trie, i) a).1 paths' ∧
      paths'[(PrefixTrie.descend (trie, i) a).2]? = some (path ++ [a]) ∧
        paths <+: paths' ∧ ∀ k, (PrefixTrie.descend (trie, i) a).1.codeAt k = trie.codeAt k := by
  unfold PrefixTrie.descend
  cases hchild : trie.child i a with
  | some j => exact ⟨paths, h, (h.child_iff hi a j).mp hchild, prefix_rfl, fun k => rfl⟩
  | none =>
    refine ⟨_, h.addChild hi hchild, ?_, prefix_append _ _, codeAt_addChild i a⟩
    rw [← h.length]
    simp

theorem Spells.foldl_descend (key : List α) :
    ∃ paths', Spells (key.foldl PrefixTrie.descend (trie, i)).1 paths' ∧
      paths'[(key.foldl PrefixTrie.descend (trie, i)).2]? = some (path ++ key) ∧
        paths <+: paths' ∧
          ∀ k, (key.foldl PrefixTrie.descend (trie, i)).1.codeAt k = trie.codeAt k := by
  induction key generalizing trie paths i path with
  | nil => exact ⟨paths, h, by simpa using hi, prefix_rfl, fun k => rfl⟩
  | cons a key ih =>
    obtain ⟨paths₁, h₁, hi₁, hprefixes₁, hcode₁⟩ := h.descend hi a
    obtain ⟨paths₂, h₂, hi₂, hprefixes₂, hcode₂⟩ := ih h₁ hi₁
    refine ⟨paths₂, h₂, ?_, hprefixes₁.trans hprefixes₂, fun k => (hcode₂ k).trans (hcode₁ k)⟩
    rw [append_cons]
    exact hi₂

end

omit [LT α] [DecidableLT α] in
theorem Spells.setCode (h : Spells trie paths) (i : ℕ) (code : β) :
    Spells (trie.setCode i code) paths := by
  have hchild : ∀ k a, (trie.setCode i code).child k a = trie.child k a := by
    intro k a
    rw [child, child, PrefixTrie.setCode, getElem?_modify]
    cases trie.nodes[k]? with
    | none => rfl
    | some node =>
      change Option.map _ (find? _ (ite _ _ _ : TrieNode α β).children) = _
      split
      · rfl
      · rfl
  refine ⟨by simp [PrefixTrie.setCode, h.length], h.root, h.nodup, h.closed, ?_⟩
  intro k path hk a j
  rw [hchild]
  exact h.child_iff hk a j

omit [DecidableEq α] [LT α] [DecidableLT α] in
theorem codeAt_setCode (hlt : i < trie.nodes.length) (code : β) (k : ℕ) :
    (trie.setCode i code).codeAt k = if k = i then some code else trie.codeAt k := by
  rw [codeAt, codeAt, PrefixTrie.setCode, getElem?_modify]
  by_cases hk : k = i
  · subst hk
    rw [getElem?_eq_getElem hlt]
    simp
  · cases trie.nodes[k]? with
    | none => simp [hk]
    | some node => simp [hk, Ne.symm hk]

/-- Insertion sets one entry of the table. -/
theorem Spells.insert (h : Spells trie paths) (key : List α) (code : β) :
    (∃ paths', Spells (trie.insert key code) paths') ∧
      ∀ key', (trie.insert key code).find key' = if key' = key then some code else trie.find key' := by
  obtain ⟨paths', h', hj, ⟨more, rfl⟩, hcode⟩ := h.foldl_descend h.root key
  have hinsert : trie.insert key code = (key.foldl PrefixTrie.descend (trie, 0)).1.setCode
      (key.foldl PrefixTrie.descend (trie, 0)).2 code := rfl
  generalize key.foldl PrefixTrie.descend (trie, 0) = reached at h' hj hcode hinsert
  have hlt : reached.2 < reached.1.nodes.length := by
    rw [← h'.length]
    exact (List.getElem?_eq_some_iff.mp hj).1
  rw [hinsert]
  refine ⟨⟨_, h'.setCode _ code⟩, fun key' => ext fun c => ?_⟩
  rw [(h'.setCode _ code).find_iff]
  simp only [codeAt_setCode hlt, hcode]
  by_cases hkey : key' = key
  · subst hkey
    rw [if_pos rfl]
    constructor
    · rintro ⟨k, hk, hc⟩
      rwa [if_pos (index_unique h'.nodup hk hj)] at hc
    · exact fun hc => ⟨reached.2, hj, by rwa [if_pos rfl]⟩
  · rw [if_neg hkey, h.find_iff]
    refine exists_congr fun k => ?_
    constructor
    · rintro ⟨hk, hc⟩
      have hother : k ≠ reached.2 := by
        rintro rfl
        exact hkey (some.inj (hk.symm.trans hj))
      rw [if_neg hother] at hc
      have hold : k < paths.length := by
        rw [h.length]
        by_contra hge
        rw [codeAt, getElem?_eq_none (not_lt.mp hge)] at hc
        cases hc
      rw [getElem?_append_left hold] at hk
      exact ⟨hk, hc⟩
    · rintro ⟨hk, hc⟩
      have hk' : (paths ++ more)[k]? = some key' :=
        (getElem?_append_left (List.getElem?_eq_some_iff.mp hk).1).trans hk
      refine ⟨hk', ?_⟩
      rw [if_neg]
      · exact hc
      · rintro rfl
        exact hkey (some.inj (hk'.symm.trans hj))

/-- The trie of a list of keys with their codes. -/
def ofEntries (entries : List (List α × β)) : PrefixTrie α β :=
  entries.foldl (fun trie entry => trie.insert entry.1 entry.2) new

theorem find_ofEntries {entries : List (List α × β)} (hnodup : (entries.map Prod.fst).Nodup)
    (key : List α) (code : β) :
    (ofEntries entries).find key = some code ↔ (key, code) ∈ entries := by
  have htable : (∃ paths, Spells (ofEntries entries) paths) ∧
      ((ofEntries entries).find key = some code ↔ (key, code) ∈ entries) := by
    induction entries using reverseRecOn with
    | nil =>
      refine ⟨⟨_, spells_new⟩, iff_of_false (fun hfind => ?_) (by simp)⟩
      obtain ⟨j, hj, hcode⟩ := (spells_new.find_iff key code).mp hfind
      cases j with
      | zero => simp [codeAt, new] at hcode
      | succ j => simp at hj
    | append_singleton entries entry ih =>
      rw [map_append, nodup_append] at hnodup
      obtain ⟨hnodup, -, hfresh⟩ := hnodup
      obtain ⟨⟨paths, hspells⟩, hfind⟩ := ih hnodup
      have hstep : ofEntries (entries ++ [entry]) = (ofEntries entries).insert entry.1 entry.2 := by
        rw [ofEntries, foldl_append]
        rfl
      rw [hstep]
      refine ⟨(hspells.insert entry.1 entry.2).1, ?_⟩
      rw [(hspells.insert entry.1 entry.2).2, mem_append, mem_singleton]
      split
      next hkey =>
        subst hkey
        have hold : (entry.1, code) ∉ entries := fun hmem =>
          hfresh _ (mem_map_of_mem hmem) _ (by simp) rfl
        rw [or_iff_right hold, Prod.ext_iff]
        simp [eq_comm]
      next hkey =>
        rw [hfind]
        refine (or_iff_left fun heq => hkey ?_).symm
        rw [← heq]
  exact htable.2

end PrefixTrie

end FlureeDb.Lib
