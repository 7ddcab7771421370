import IChat.Data.SortedMap
import IChat.Data.KeyTree
import IChat.Async.Prog
import IChat.Async.Proof.Footprint
import IChat.Async.Proof.LostUpdate
import IChat.Async.Proof.Commute
import IChat.Firebase.Snapshot
import IChat.Firebase.Proof.RoundTrip
import IChat.Firebase.Reference
import IChat.Manager.DatabaseManager
import IChat.Async.Proof.Append
import IChat.Manager.Proof.Spec
import IChat.Manager.Proof.Overlap
import IChat.Manager.Proof.Interference
import IChat.Async.Proof.Guarantee
import IChat.Manager.Account
import IChat.Manager.Proof.Isolation
import IChat.Manager.Proof.Alone
import IChat.Manager.ChatStore
import IChat.Manager.Proof.Refinement
import IChat.Manager.Proof.FailedRegistrations
import IChat.Manager.Proof.FailedConversations
import IChat.Controllers.Chat
import IChat.Controllers.Proof.MessageIds
import IChat.Events.Machine
import IChat.Controllers.App
import IChat.Controllers.Proof.Session
import IChat.Controllers.Pictures
import IChat.Controllers.Proof.AccountKey
import IChat.Controllers.Proof.Keys
import IChat.Manager.Proof.Shapes
import IChat.Manager.Proof.UserExists
import IChat.Controllers.Proof.Peers
import IChat.Controllers.Proof.Registration
import IChat.Controllers.Proof.Launch
import IChat.Controllers.NewConversation
import IChat.Controllers.Proof.Search
import IChat.Controllers.Fetches
import IChat.Controllers.Proof.Fetches
import IChat.Controllers.Proof.Directory
import IChat.Controllers.Conversations
import IChat.Controllers.Proof.Conversations
import IChat.Async.Callback
import IChat.Manager.Callbacks
import IChat.Manager.Proof.Answers
import IChat.Controllers.Proof.Frames
import IChat.Controllers.Proof.Spinner
import IChat.Data.ImmutableTree
import IChat.Data.Replay
import IChat.Firebase.CompoundWrite
import IChat.Firebase.Proof.CompoundWrite
import IChat.Firebase.Proof.RemoveWrite
import IChat.Firebase.Proof.WriteTree
import IChat.Firebase.View
import IChat.Firebase.Proof.EventCache
import IChat.Firebase.Proof.View
import IChat.Firebase.Proof.Nodes
import IChat.Firebase.Proof.Synced
import IChat.Data.TreeValues
import IChat.Firebase.SyncTree
import IChat.Firebase.Proof.SyncTree
import IChat.Firebase.Repo
import IChat.Firebase.Proof.Told
import IChat.Data.Topmost
import IChat.Firebase.Proof.Listens
import IChat.Firebase.Proof.Repo
import IChat.Firebase.Proof.Order
import IChat.Firebase.Client
import IChat.Firebase.Proof.Client
import IChat.Firebase.Proof.Shown
import IChat.Firebase.Proof.ServerData
import IChat.Firebase.Proof.Replica
import IChat.Firebase.Client
import IChat.Firebase.Proof.Client
import IChat.Controllers.Fetches
import IChat.Controllers.Proof.Fetches
