import FormalLanguages.Generation.Rows
import FormalLanguages.Proofs.Interpretation

/-!
The two orders of a search. From the right everything is read backwards: the bodies, and the chains
that they stand for. Once its chains are turned round as well, a body reads the same in both orders.
-/

namespace FormalLanguages

theorem Body.Reads.reverse {I J : Interpretation} {body : Body} {chain : List Char}
    (h : body.Reads I chain) (hIJ : ∀ name chain, I name chain → J name chain.reverse) :
    Body.Reads J body.reverse chain.reverse := by
  induction body generalizing chain with
  | nil =>
      obtain rfl := Body.Reads.nil_iff.mp h
      exact rfl
  | cons symbol body ih =>
      rw [List.reverse_cons]
      cases symbol with
      | terminal c =>
          obtain ⟨rest, rfl, hrest⟩ := h
          rw [List.reverse_cons]
          exact (ih hrest).append Body.Reads.terminal
      | nonTerminal name =>
          obtain ⟨first, rest, rfl, hfirst, hrest⟩ := h
          rw [List.reverse_append]
          exact (ih hrest).append (Body.Reads.singleton_iff.mpr (hIJ name first hfirst))

namespace Generation

namespace Order

/-- The chain whose letters are read in this order. -/
def text : Order → List Char → List Char
  | .leftmost, letters => letters
  | .rightmost, letters => letters.reverse

@[simp] theorem text_text (order : Order) (letters : List Char) :
    order.text (order.text letters) = letters := by
  cases order with
  | leftmost => rfl
  | rightmost => exact List.reverse_reverse letters

@[simp] theorem length_text (order : Order) (letters : List Char) :
    (order.text letters).length = letters.length := by
  cases order with
  | leftmost => rfl
  | rightmost => exact List.length_reverse

theorem chain_reverse (order : Order) (letters : List Char) :
    order.chain letters.reverse = String.ofList (order.text letters) := by
  cases order with
  | leftmost => simp [chain, text]
  | rightmost => rfl

/-- What the names stand for when their chains are read in this order. -/
def derives (order : Order) (rules : RuleTable) : Interpretation := fun name letters =>
  rules.Derives name (order.text letters)

/-- A body that is read in this order, with the chains of its names turned as well. -/
theorem reads_arrange_iff {order : Order} {I : Interpretation} {body : Body}
    {letters : List Char} :
    (order.arrange body).Reads (fun name letters => I name (order.text letters)) letters ↔
      body.Reads I (order.text letters) := by
  cases order with
  | leftmost => rfl
  | rightmost =>
      change Body.Reads _ body.reverse letters ↔ body.Reads I letters.reverse
      constructor
      · intro h
        have hback := h.reverse (J := I) fun name chain hchain => hchain
        rwa [List.reverse_reverse] at hback
      · intro h
        have hnames : ∀ name chain, I name chain → I name (text .rightmost chain.reverse) := by
          intro name chain hchain
          show I name chain.reverse.reverse
          rwa [List.reverse_reverse]
        have hback := h.reverse (J := fun name letters => I name (text .rightmost letters)) hnames
        rwa [List.reverse_reverse] at hback

theorem reads_arrange {order : Order} {rules : RuleTable} {body : Body} {letters : List Char} :
    (order.arrange body).Reads (order.derives rules) letters ↔
      body.Reads rules.Derives (order.text letters) :=
  reads_arrange_iff (I := rules.Derives)

end Order

namespace Rows

theorem bodies_map (heads : List String) (f : String → List Body) (name : String) :
    bodies (heads.map fun head => (head, f head)) name = if name ∈ heads then f name else [] := by
  induction heads with
  | nil => rfl
  | cons head heads ih =>
      rw [List.map_cons, bodies_cons, ih]
      by_cases h : name = head
      · simp [h]
      · simp [h]

/-- A search sees the bodies of each head, arranged in its order. -/
theorem mem_bodies_ofRules {order : Order} {rules : RuleTable} {name : String} {body : Body} :
    body ∈ (ofRules order rules).bodies name ↔
      ∃ old, ⟨name, old⟩ ∈ rules ∧ order.arrange old = body := by
  have hrows : ofRules order rules = (rules.toList.map Rule.head).eraseDups.map fun head =>
      (head, (rules.bodies head).map order.arrange) := by
    simp [ofRules, RuleTable.rows]
  rw [hrows, bodies_map]
  constructor
  · intro h
    split at h
    · obtain ⟨old, hold, rfl⟩ := List.mem_map.mp h
      exact ⟨old, RuleTable.mem_bodies.mp hold, rfl⟩
    · exact absurd h List.not_mem_nil
  · rintro ⟨old, hold, rfl⟩
    have hhead : name ∈ (rules.toList.map Rule.head).eraseDups :=
      List.mem_eraseDups.mpr (List.mem_map.mpr ⟨_, Std.ExtTreeSet.mem_toList.mpr hold, rfl⟩)
    rw [if_pos hhead]
    exact List.mem_map_of_mem (RuleTable.mem_bodies.mpr hold)

/-- The equation of a name, in the order of the search. -/
theorem derives_iff {order : Order} {rules : RuleTable} {name : String} {letters : List Char} :
    order.derives rules name letters ↔
      ∃ body ∈ (ofRules order rules).bodies name, body.Reads (order.derives rules) letters := by
  rw [Order.derives, RuleTable.derives_iff]
  constructor
  · rintro ⟨old, hold, hreads⟩
    exact ⟨_, mem_bodies_ofRules.mpr ⟨old, hold, rfl⟩, Order.reads_arrange.mpr hreads⟩
  · rintro ⟨body, hbody, hreads⟩
    obtain ⟨old, hold, rfl⟩ := mem_bodies_ofRules.mp hbody
    exact ⟨old, hold, Order.reads_arrange.mp hreads⟩

end Rows

end Generation

end FormalLanguages
