import Devote.Bytes
import Devote.Trie
import Devote.Storage
import Devote.Rlp
import Devote.Protocol
import Devote.Calls
import Devote.Delegation
import Devote.Rolling
import Devote.Checkpoint
import Devote.Witnesses
import Devote.PaymentVote
import Devote.Pipeline
import Devote.Chain
import Devote.Registry
import Devote.Backend
