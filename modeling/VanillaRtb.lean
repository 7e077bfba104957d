import VanillaRtb.Exchange.Multibid
import VanillaRtb.Bidder.Bidder
import VanillaRtb.Bidder.ChainedAds
import VanillaRtb.Lib.Transition
import VanillaRtb.Http.Grammar
import VanillaRtb.Http.Connection
import VanillaRtb.Http.Serving
import VanillaRtb.Exchange.MultibidderCommunicator
import VanillaRtb.Exchange.Handler
import VanillaRtb.Exchange.Leftovers
import VanillaRtb.Messaging.Requests
import VanillaRtb.Dsl.Response
import VanillaRtb.Datacache.Growth
import VanillaRtb.Bidder.Extracted
import VanillaRtb.Dsl.Denotation
import VanillaRtb.Exchange.Post
import VanillaRtb.Dsl.Agreement
import VanillaRtb.Campaign.Commands
import VanillaRtb.Campaign.Interleaving
import VanillaRtb.Campaign.Replication
import VanillaRtb.Matchers.Walking
import VanillaRtb.Datacache.Segments
import VanillaRtb.Http.Dispatcher
import VanillaRtb.Http.Language
import VanillaRtb.Auditor.Codec
import VanillaRtb.Auditor.Overtaking
import VanillaRtb.Auditor.Regions
import VanillaRtb.Dsl.Overloads
import VanillaRtb.Core.Forwarding
import VanillaRtb.Bidder.Prices
import VanillaRtb.Exchange.Collected
import VanillaRtb.Bidder.Reused
import VanillaRtb.Messaging.StringViews
import VanillaRtb.Matchers.CompleteLines
import VanillaRtb.Datacache.Retrieving
import VanillaRtb.Common.DecisionTree
import VanillaRtb.Matchers.SplitString
import VanillaRtb.Core.TaggedTuple
import VanillaRtb.Core.Copying
import VanillaRtb.Core.Process
import VanillaRtb.Core.UnicodeString
import VanillaRtb.Http.Version
import VanillaRtb.Auditor.Writing
import VanillaRtb.Auditor.Turns
import VanillaRtb.Messaging.Replies
import VanillaRtb.Common.UriHosts
import VanillaRtb.Matchers.Domains
import VanillaRtb.Auditor.Logging
import VanillaRtb.Http.RequestHandler
import VanillaRtb.Http.Server
import VanillaRtb.Campaign.Manager
import VanillaRtb.Exchange.ExchangeServer
import VanillaRtb.Campaign.Spending
import VanillaRtb.Core.Distribute
