import IChat.Controllers.Chat

/-!
# Profile pictures and compose

The storage paths of profile pictures, which three files build on their own, and the chat that
`ConversationViewController` opens for a user found in the directory.
-/

namespace IChat

open Firebase SortedMap

/-- The path of `StorageManager.uploadProfilePicture(with:fileName:)`. -/
def uploadPath (fileName : String) : String := "images/" ++ fileName

/-- The path of `ProfileViewController.createTableViewHeader`. -/
def headerPath (currentUser : String) : String :=
  let safeEmail := safeEmail currentUser
  let fileName := safeEmail ++ "_profile_picture.png"
  "images/" ++ fileName

/-- The path of `ConversationsTableViewCell.configure(with:)`. -/
def cellPath (model : Conversation) : String :=
  "images/" ++ model.otherUserEmail ++ "_profile_picture.png"

/-- `ConversationViewController.createNewConversation(result:)`: the chat with an entry of the
directory; an entry without an email ends the process. -/
def composeChat (result : List (String × String)) : Option ChatViewController := do
  let email ← find "safeEmail" result
  return ⟨email, find "name" result, true⟩

theorem composeChat_newUser (user : ChatAppUser) :
    composeChat user.newUser =
      some ⟨user.safeEmail, some (user.firstName ++ " " ++ user.lastName), true⟩ := rfl

end IChat
