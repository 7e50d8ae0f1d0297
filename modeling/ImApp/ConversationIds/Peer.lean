import Mathlib.Data.List.Infix

/-!
The ids of single chats. The two user ids are sorted and joined with an underscore; the
other user is read off by matching the own id, first at the start and then at the end.
The later of the two ids may match at the start as well.
-/

namespace ImApp.ConversationIds

open List

/-- A string, as its bytes. -/
abbrev Text := List UInt8

inductive Failure where
  | invalidConversationSettings
  deriving DecidableEq

/-- `_` -/
def underscore : UInt8 := 95

/-- `si_` -/
def singleChat : Text := [115, 105, 95]

def trimPrefix (text start : Text) : Text :=
  if start.isPrefixOf text then text.drop start.length else text

def trimSuffix (text ending : Text) : Text :=
  if ending.isSuffixOf text then text.take (text.length - ending.length) else text

/-- `sort.Strings` compares bytes. -/
def sorted (a b : Text) : Text × Text := if b < a then (b, a) else (a, b)

def joined (first second : Text) : Text := first ++ underscore :: second

def buildC2CConversationID (a b : Text) : Text :=
  singleChat ++ joined (sorted a b).1 (sorted a b).2

def peerUserIDFromConversation (conversationID ownerUserID : Text) : Except Failure Text :=
  if !singleChat.isPrefixOf conversationID ∨ ownerUserID = [] then
    throw .invalidConversationSettings
  else
    let payload := trimPrefix conversationID singleChat
    let own := ownerUserID ++ [underscore]
    if own.isPrefixOf payload ∧ trimPrefix payload own ≠ [] then pure (trimPrefix payload own)
    else
      let own := underscore :: ownerUserID
      if own.isSuffixOf payload ∧ trimSuffix payload own ≠ [] then pure (trimSuffix payload own)
      else throw .invalidConversationSettings

variable {first second owner payload : Text}

theorem trimPrefix_append (start rest : Text) : trimPrefix (start ++ rest) start = rest := by
  simp [trimPrefix]

theorem trimSuffix_append (rest ending : Text) : trimSuffix (rest ++ ending) ending = rest := by
  simp [trimSuffix]

theorem peer_of_start {rest : Text} (howner : owner ≠ []) (hrest : rest ≠ []) :
    peerUserIDFromConversation (singleChat ++ (owner ++ [underscore] ++ rest)) owner = .ok rest := by
  have hown : (owner ++ [underscore]).isPrefixOf (owner ++ [underscore] ++ rest) = true :=
    isPrefixOf_iff_prefix.mpr (prefix_append _ _)
  unfold peerUserIDFromConversation
  simp only [trimPrefix_append]
  rw [if_neg (by simp [howner]), if_pos ⟨hown, hrest⟩]
  rfl

theorem peer_of_end (hfirst : first ≠ []) (hsecond : second ≠ [])
    (hstart : ¬ second ++ [underscore] <+: joined first second) :
    peerUserIDFromConversation (singleChat ++ joined first second) second = .ok first := by
  have hchat : singleChat.isPrefixOf (singleChat ++ joined first second) = true :=
    isPrefixOf_iff_prefix.mpr (prefix_append _ _)
  have hown : (underscore :: second).isSuffixOf (joined first second) = true :=
    isSuffixOf_iff_suffix.mpr (suffix_append _ _)
  have hrest : trimSuffix (joined first second) (underscore :: second) = first :=
    trimSuffix_append first _
  unfold peerUserIDFromConversation
  simp only [trimPrefix_append]
  rw [if_neg (by simp [hchat, hsecond]), if_neg, if_pos ⟨hown, by rwa [hrest]⟩, hrest]
  · rfl
  exact fun h => hstart ( isPrefixOf_iff_prefix.mp h.1)

theorem peer_of_first (hfirst : first ≠ []) (hsecond : second ≠ []) :
    peerUserIDFromConversation (singleChat ++ joined first second) first = .ok second := by
  have hjoined : joined first second = first ++ [underscore] ++ second := by simp [joined]
  rw [hjoined]
  exact peer_of_start hfirst hsecond

/-- The later id matches at the start only where the two orders of joining agree. -/
def StartsApart (first second : Text) : Prop :=
  second ++ [underscore] <+: joined first second → joined second first = joined first second

theorem peer_of_second (hfirst : first ≠ []) (hsecond : second ≠ []) :
    peerUserIDFromConversation (singleChat ++ joined first second) second = .ok first ↔
      StartsApart first second := by
  by_cases hstart : second ++ [underscore] <+: joined first second
  · obtain ⟨rest, hrest⟩ := hstart
    have hlen : rest.length = first.length := by
      have h := congrArg length hrest
      simp only [joined, length_append, length_cons, length_nil] at h
      omega
    have hfilled : rest ≠ [] := by
      rintro rfl
      exact hfirst (length_eq_zero_iff.mp hlen.symm)
    have hpeer := peer_of_start hsecond hfilled
    rw [hrest] at hpeer
    have hother : joined second first = second ++ [underscore] ++ first := by simp [joined]
    rw [hpeer]
    constructor
    · intro h _
      cases h
      rw [hother, hrest]
    intro h
    have hsame := h ⟨rest, hrest⟩
    rw [hother, ← hrest] at hsame
    rw [append_cancel_left hsame]
  exact ⟨fun _ h => absurd h hstart, fun _ => peer_of_end hfirst hsecond hstart⟩

/-- Both users read the other off the id of their chat. -/
theorem peer_of_built {a b : Text} (ha : a ≠ []) (hb : b ≠ []) :
    (peerUserIDFromConversation (buildC2CConversationID a b) a = .ok b ∧
      peerUserIDFromConversation (buildC2CConversationID a b) b = .ok a) ↔
      StartsApart (sorted a b).1 (sorted a b).2 := by
  unfold buildC2CConversationID sorted
  split
  · rw [peer_of_second hb ha, peer_of_first hb ha]
    simp
  rw [peer_of_second ha hb, peer_of_first ha hb]
  simp

/-- `u_1` and `u_2` -/
theorem peer_of_built_apart : StartsApart (sorted [117, 95, 50] [117, 95, 49]).1
    (sorted [117, 95, 50] [117, 95, 49]).2 :=
  (peer_of_built (by decide) (by decide)).mp (by decide)

/-- In the chat of `b_a` and `b_a_b` the second user is told `a_b`. -/
theorem peer_of_built_shared : ¬ ∀ a b : Text, a ≠ [] → b ≠ [] → a ≠ b →
    peerUserIDFromConversation (buildC2CConversationID a b) a = .ok b ∧
      peerUserIDFromConversation (buildC2CConversationID a b) b = .ok a := by
  intro h
  have hsecond := (h [98, 95, 97] [98, 95, 97, 95, 98] (by decide) (by decide) (by decide)).2
  exact absurd hsecond (by decide)

end ImApp.ConversationIds
